/-
  File:      Ceres/Library/Folders.lean
  Subject:   WALKING DOWN A TREE OF FOLDERS, level by level.

  Each level reads the names of a folder's entries, with what is known of the folder; the folders it admits
  are visited in an order of its own. Reading a name may fail, which ends the walk with what it has yielded.

  * `Folders`, `Folders.Holds` -- the tree, and a path of folders in it; `ofPaths` -- the tree of some paths;
  * `Walked`, `through` -- what a generator yields, and one after the other for the elements of a list;
  * `visit` -- the walk; `Opens` -- the names of a path as the levels read them;
  * `mem_visit`, **`count_visit`** -- a walk yields paths that are there and open, and one that does not fail
    each of them once; `mem_visit_cons` -- of a path yielded, no folder that is visited before it fails;
  * **`visit_pairwise`** -- its order from that of the entries of one folder; **`pair_sublist`** -- which of two
    paths comes first;
  * `visit_raised`, `not_raised` -- when it fails; `not_mem_of_error`, `not_mem_of_first` -- what it does not yield
    then.
-/
import Mathlib.Tactic
import Mathlib.Data.List.Sort

namespace Ceres.Library

/-! ## 1. Trees -/

variable {ν : Type}

/-- What the listing of a folder gives: its entries' names, and which of them are folders. -/
structure Folders (ν : Type) where
  entries : List ν → Option (List (ν × Bool))
  nodup : ∀ folder list, entries folder = some list → (list.map Prod.fst).Nodup

/-- Below a folder there are the folders of a path, one in the other. -/
def Folders.Holds (folders : Folders ν) : List ν → List ν → Prop
  | _, [] => True
  | folder, name :: names =>
    (∃ entries, folders.entries folder = some entries ∧ (name, true) ∈ entries) ∧
      Folders.Holds folders (folder ++ [name]) names

/-- The name that follows a folder on a path. -/
def nextName [DecidableEq ν] (folder path : List ν) : Option ν :=
  if folder <+: path then path[folder.length]? else none

/-- The tree of some paths. -/
def Folders.ofPaths [DecidableEq ν] (paths : List (List ν)) : Folders ν where
  entries folder := some (((paths.filterMap (nextName folder)).dedup).map fun name => (name, true))
  nodup folder list hlist := by
    obtain rfl := Option.some.inj hlist
    rw [List.map_map]
    exact (List.map_id _).symm ▸ List.nodup_dedup _

theorem nextName_append [DecidableEq ν] (above : List ν) (name : ν) (below : List ν) :
    nextName above (above ++ name :: below) = some name := by
  rw [nextName, if_pos (List.prefix_append above _), List.getElem?_append_right le_rfl, Nat.sub_self]
  rfl

theorem ofPaths_holds [DecidableEq ν] {paths : List (List ν)} : ∀ {names folder : List ν},
    folder ++ names ∈ paths → (Folders.ofPaths paths).Holds folder names
  | [], _, _ => trivial
  | name :: names, folder, h => by
    refine ⟨⟨_, rfl, List.mem_map.mpr ⟨name, List.mem_dedup.mpr ?_, rfl⟩⟩, ofPaths_holds ?_⟩
    · exact List.mem_filterMap.mpr ⟨_, h, nextName_append folder name names⟩
    · rw [List.append_assoc]
      exact h

theorem mem_ofPaths [DecidableEq ν] {paths : List (List ν)} {folder : List ν} {list : List (ν × Bool)}
    {entry : ν × Bool} (h : (Folders.ofPaths paths).entries folder = some list) (hentry : entry ∈ list) :
    ∃ path ∈ paths, ∃ below, path = folder ++ entry.1 :: below := by
  obtain rfl := Option.some.inj h
  obtain ⟨name, hname, rfl⟩ := List.mem_map.mp hentry
  obtain ⟨path, hpath, hnext⟩ := List.mem_filterMap.mp (List.mem_dedup.mp hname)
  unfold nextName at hnext
  split at hnext
  · rename_i hprefix
    obtain ⟨rest, rfl⟩ := hprefix
    rw [List.getElem?_append_right le_rfl, Nat.sub_self] at hnext
    cases rest with
    | nil => cases hnext
    | cons first below =>
      obtain rfl := Option.some.inj hnext
      exact ⟨_, hpath, below, rfl⟩
  · cases hnext

/-! ## 2. Generators -/

/-- What a generator yields, and whether it fails after that. -/
structure Walked (β : Type) where
  values : List β
  raised : Bool

/-- One generator after the other, up to the first that fails. -/
def Walked.through {α β : Type} (f : α → Walked β) : List α → Walked β
  | [] => ⟨[], false⟩
  | a :: rest =>
    if (f a).raised then f a else ⟨(f a).values ++ (through f rest).values, (through f rest).raised⟩

section Through

variable {α β : Type} {f : α → Walked β}

theorem through_raised : ∀ {list : List α},
    (Walked.through f list).raised = true ↔ ∃ a ∈ list, (f a).raised = true
  | [] => by simp [Walked.through]
  | a :: rest => by
    rw [Walked.through]
    cases hraised : (f a).raised
    · have hrest : (Walked.through f rest).raised = true ↔ ∃ a ∈ rest, (f a).raised = true := through_raised
      simp [hraised, hrest]
    · simp [hraised]

theorem through_values : ∀ {list : List α}, (∀ a ∈ list, (f a).raised = false) →
    (Walked.through f list).values = list.flatMap fun a => (f a).values
  | [], _ => rfl
  | a :: rest, h => by
    obtain ⟨hfirst, hrest⟩ := List.forall_mem_cons.mp h
    rw [Walked.through, hfirst, if_neg Bool.false_ne_true, List.flatMap_cons, through_values hrest]

theorem through_prefix : ∀ {list : List α},
    (Walked.through f list).values <+: list.flatMap fun a => (f a).values
  | [] => List.prefix_rfl
  | a :: rest => by
    rw [Walked.through, List.flatMap_cons]
    split
    · exact List.prefix_append _ _
    · exact (List.prefix_append_right_inj _).mpr through_prefix

/-- Nothing before what yields a value fails. -/
theorem mem_through {b : β} : ∀ {list : List α}, b ∈ (Walked.through f list).values →
    ∃ before a after, list = before ++ a :: after ∧ b ∈ (f a).values ∧ ∀ c ∈ before, (f c).raised = false
  | [], h => absurd h List.not_mem_nil
  | a :: rest, h => by
    rw [Walked.through] at h
    cases hraised : (f a).raised
    · rw [hraised, if_neg Bool.false_ne_true] at h
      rcases List.mem_append.mp h with hfirst | hrest
      · exact ⟨[], a, rest, rfl, hfirst, by simp⟩
      · obtain ⟨before, c, after, rfl, hc, hbefore⟩ := mem_through hrest
        exact ⟨a :: before, c, after, rfl, hc, List.forall_mem_cons.mpr ⟨hraised, hbefore⟩⟩
    · rw [hraised, if_pos rfl] at h
      exact ⟨[], a, rest, rfl, h, by simp⟩

end Through

/-! ## 3. The walk -/

/-- What some levels know of a path, that read its names one after the other. -/
def readDown {σ κ ε : Type} (read : σ → κ → ν → Except ε (Option κ)) : List σ → κ → List ν → Option κ
  | [], known, [] => some known
  | level :: levels, known, name :: names =>
    match read level known name with
    | .ok (some found) => readDown read levels found names
    | _ => none
  | _, _, _ => none

/-- How a level reads a name in a folder of which something is known, which folders it visits, and by what it
    orders them. -/
structure Visitor (σ κ ε ν ο : Type) where
  read : σ → κ → ν → Except ε (Option κ)
  accepts : κ → Bool
  key : ν × κ → ο

section Visits

variable {σ κ ε ο : Type} (visitor : Visitor σ κ ε ν ο) (folders : Folders ν)

/-- The folders of a listing that are visited; the first name that fails ends it. -/
def Visitor.listed (level : σ) (known : κ) : List (ν × Bool) → Except ε (List (ν × κ))
  | [] => .ok []
  | (name, isFolder) :: rest =>
    match visitor.read level known name with
    | .error e => .error e
    | .ok none => Visitor.listed level known rest
    | .ok (some found) =>
      if visitor.accepts found && isFolder then
        (Visitor.listed level known rest).map ((name, found) :: ·)
      else Visitor.listed level known rest

/-- The folders below one, level by level. -/
def Visitor.visit [LinearOrder ο] : List σ → List ν → κ → Walked (List ν)
  | [], folder, _ => ⟨[folder], false⟩
  | level :: levels, folder, known =>
    match folders.entries folder with
    | none => ⟨[], false⟩
    | some entries =>
      match visitor.listed level known entries with
      | .error _ => ⟨[], true⟩
      | .ok found =>
        Walked.through (fun child => Visitor.visit levels (folder ++ [child.1]) child.2)
          (found.insertionSort fun child other => visitor.key child ≤ visitor.key other)

/-- Every level reads its name of a path and visits the folder. -/
def Visitor.Opens : List σ → κ → List ν → Prop
  | [], _, [] => True
  | level :: levels, known, name :: names =>
    ∃ found, visitor.read level known name = .ok (some found) ∧ visitor.accepts found = true ∧
      Visitor.Opens levels found names
  | _, _, _ => False

variable {visitor folders}

def Visitor.entered (visitor : Visitor σ κ ε ν ο) (level : σ) (known : κ) (entry : ν × Bool) : Option (ν × κ) :=
  match visitor.read level known entry.1 with
  | .ok (some found) => if visitor.accepts found && entry.2 then some (entry.1, found) else none
  | _ => none

variable {child : ν × κ}

theorem entered_eq_some {level : σ} {known : κ} {entry : ν × Bool} :
    visitor.entered level known entry = some child ↔
      entry = (child.1, true) ∧ visitor.read level known child.1 = .ok (some child.2) ∧
        visitor.accepts child.2 = true := by
  obtain ⟨name, isFolder⟩ := entry
  obtain ⟨other, state⟩ := child
  unfold Visitor.entered
  constructor
  · intro h
    split at h
    · rename_i found hread
      split at h
      · rename_i hvisited
        obtain ⟨rfl, rfl⟩ := Prod.mk.inj (Option.some.inj h)
        obtain ⟨haccepts, hfolder⟩ := (Bool.and_eq_true _ _).mp hvisited
        exact ⟨Prod.ext rfl hfolder, hread, haccepts⟩
      · cases h
    · cases h
  · rintro ⟨hentry, hread, haccepts⟩
    obtain ⟨rfl, rfl⟩ := Prod.mk.inj hentry
    dsimp only at hread haccepts ⊢
    rw [hread]
    dsimp only
    rw [haccepts]
    rfl

theorem listed_eq_ok {level : σ} {known : κ} : ∀ {entries : List (ν × Bool)} {list : List (ν × κ)},
    visitor.listed level known entries = .ok list ↔
      (∀ entry ∈ entries, ∀ e, visitor.read level known entry.1 ≠ .error e) ∧
        list = entries.filterMap (visitor.entered level known)
  | [], list => by simp [Visitor.listed, eq_comm]
  | (name, isFolder) :: rest, list => by
    rw [Visitor.listed, List.forall_mem_cons, and_assoc]
    cases hread : visitor.read level known name with
    | error e => simp
    | ok result =>
      cases result with
      | none =>
        rw [List.filterMap_cons_none (by simp [Visitor.entered, hread]), ← listed_eq_ok]
        simp
      | some found =>
        cases hvisited : visitor.accepts found && isFolder
        · rw [List.filterMap_cons_none (by simp [Visitor.entered, hread, hvisited]), ← listed_eq_ok]
          simp [hvisited]
        · rw [List.filterMap_cons_some (b := (name, found)) (by simp [Visitor.entered, hread, hvisited])]
          dsimp only
          rw [if_pos hvisited]
          constructor
          · intro h
            cases hrest : visitor.listed level known rest with
            | error e =>
              rw [hrest] at h
              cases h
            | ok others =>
              rw [hrest] at h
              obtain ⟨hnames, rfl⟩ := listed_eq_ok.mp hrest
              exact ⟨by simp, hnames, (Except.ok.inj h).symm⟩
          · rintro ⟨-, hnames, rfl⟩
            rw [listed_eq_ok.mpr ⟨hnames, rfl⟩]
            rfl

theorem mem_listed {level : σ} {known : κ} {entries : List (ν × Bool)} {list : List (ν × κ)}
    (h : visitor.listed level known entries = .ok list) :
    child ∈ list ↔ (child.1, true) ∈ entries ∧ visitor.read level known child.1 = .ok (some child.2) ∧
      visitor.accepts child.2 = true := by
  rw [(listed_eq_ok.mp h).2, List.mem_filterMap]
  constructor
  · rintro ⟨entry, hentry, hchild⟩
    obtain ⟨rfl, hread, haccepts⟩ := entered_eq_some.mp hchild
    exact ⟨hentry, hread, haccepts⟩
  · rintro ⟨hentry, hread, haccepts⟩
    exact ⟨_, hentry, entered_eq_some.mpr ⟨rfl, hread, haccepts⟩⟩

/-- The folders that are visited have names of their own. -/
theorem listed_apart {level : σ} {known : κ} {entries : List (ν × Bool)} {list : List (ν × κ)}
    (hnodup : (entries.map Prod.fst).Nodup) (h : visitor.listed level known entries = .ok list) :
    list.Pairwise fun child other => child.1 ≠ other.1 := by
  rw [(listed_eq_ok.mp h).2]
  refine List.Pairwise.filterMap _ (fun entry entry' hne child hchild other hother => ?_)
    (List.pairwise_map.mp hnodup)
  obtain ⟨rfl, -⟩ := entered_eq_some.mp hchild
  obtain ⟨rfl, -⟩ := entered_eq_some.mp hother
  exact hne

theorem readDown_append {read : σ → κ → ν → Except ε (Option κ)} {levels : List σ} {names : List ν} : ∀ {above : List σ}
    {known found : κ} {folder : List ν}, readDown read above known folder = some found →
      readDown read (above ++ levels) known (folder ++ names) = readDown read levels found names
  | [], known, found, [], h => by
    obtain rfl := Option.some.inj h
    rfl
  | [], _, _, _ :: _, h => by cases h
  | _ :: _, _, _, [], h => by cases h
  | level :: above, known, found, name :: folder, h => by
    rw [readDown] at h
    rw [List.cons_append, List.cons_append, readDown]
    split at h
    · exact readDown_append h
    · cases h

theorem opens_length : ∀ {levels : List σ} {known : κ} {names : List ν}, visitor.Opens levels known names →
    names.length = levels.length
  | [], _, [], _ => rfl
  | _ :: _, _, _ :: _, ⟨_, _, _, hopens⟩ => congrArg (· + 1) (opens_length hopens)

theorem opens_readDown {levels : List σ} : ∀ {known : κ} {names : List ν}, visitor.Opens levels known names →
    ∃ found, readDown visitor.read levels known names = some found ∧
      (levels ≠ [] → visitor.accepts found = true) := by
  induction levels with
  | nil =>
    intro known names h
    cases names with
    | nil => exact ⟨known, rfl, fun hne => absurd rfl hne⟩
    | cons name names => cases h
  | cons level levels ih =>
    intro known names h
    cases names with
    | nil => cases h
    | cons name names =>
      obtain ⟨first, hread, haccepts, hopens⟩ := h
      obtain ⟨found, hfound, hlast⟩ := ih hopens
      refine ⟨found, ?_, fun _ => ?_⟩
      · rw [readDown, hread]
        exact hfound
      · cases levels with
        | nil =>
          cases names with
          | nil => exact Option.some.inj hfound ▸ haccepts
          | cons name names => cases hopens
        | cons next levels => exact hlast (by simp)

variable [LinearOrder ο]

/-- The folders of a listing in the order they are visited in. -/
def Visitor.sorted (visitor : Visitor σ κ ε ν ο) (found : List (ν × κ)) : List (ν × κ) :=
  found.insertionSort fun x y => visitor.key x ≤ visitor.key y

theorem mem_sorted {found : List (ν × κ)} : child ∈ visitor.sorted found ↔ child ∈ found :=
  List.mem_insertionSort _

theorem sorted_pairwise (found : List (ν × κ)) :
    (visitor.sorted found).Pairwise fun child other => visitor.key child ≤ visitor.key other := by
  have : Std.Total fun x y : ν × κ => visitor.key x ≤ visitor.key y := ⟨fun x y => le_total _ _⟩
  have : IsTrans (ν × κ) fun x y => visitor.key x ≤ visitor.key y := ⟨fun x y z => le_trans⟩
  exact List.pairwise_insertionSort _ _

theorem sorted_apart {level : σ} {folder : List ν} {known : κ} {entries : List (ν × Bool)} {found : List (ν × κ)}
    (hentries : folders.entries folder = some entries) (hfound : visitor.listed level known entries = .ok found) :
    (visitor.sorted found).Pairwise fun child other => child.1 ≠ other.1 :=
  ((List.perm_insertionSort _ found).pairwise_iff fun {_ _} hne => Ne.symm hne).mpr
    (listed_apart (folders.nodup _ _ hentries) hfound)

/-! ## 4. What is yielded -/

variable {level : σ} {levels : List σ} {folder : List ν} {known : κ}

theorem visit_cons {entries : List (ν × Bool)} {found : List (ν × κ)}
    (hentries : folders.entries folder = some entries) (hfound : visitor.listed level known entries = .ok found) :
    visitor.visit folders (level :: levels) folder known =
      Walked.through (fun child => visitor.visit folders levels (folder ++ [child.1]) child.2)
        (visitor.sorted found) := by
  rw [Visitor.visit, hentries]
  dsimp only
  rw [hfound]
  rfl

/-- **Of a path that is yielded**, nothing that is visited before it fails. -/
theorem mem_visit_cons {path : List ν}
    (h : path ∈ (visitor.visit folders (level :: levels) folder known).values) :
    ∃ entries found before child after, folders.entries folder = some entries ∧
      visitor.listed level known entries = .ok found ∧ visitor.sorted found = before ++ child :: after ∧
      path ∈ (visitor.visit folders levels (folder ++ [child.1]) child.2).values ∧
      ∀ other ∈ before, (visitor.visit folders levels (folder ++ [other.1]) other.2).raised = false := by
  cases hentries : folders.entries folder with
  | none =>
    rw [Visitor.visit, hentries] at h
    exact absurd h List.not_mem_nil
  | some entries =>
    cases hfound : visitor.listed level known entries with
    | error e =>
      rw [Visitor.visit, hentries] at h
      dsimp only at h
      rw [hfound] at h
      exact absurd h List.not_mem_nil
    | ok found =>
      rw [visit_cons hentries hfound] at h
      obtain ⟨before, child, after, hsorted, hpath, hbefore⟩ := mem_through h
      exact ⟨entries, found, before, child, after, rfl, hfound, hsorted, hpath, hbefore⟩

theorem mem_visit : ∀ {levels : List σ} {folder : List ν} {known : κ} {path : List ν},
    path ∈ (visitor.visit folders levels folder known).values →
      ∃ names, path = folder ++ names ∧ visitor.Opens levels known names ∧ folders.Holds folder names
  | [], folder, known, path, h => by
    obtain rfl := List.mem_singleton.mp h
    exact ⟨[], (List.append_nil _).symm, trivial, trivial⟩
  | level :: levels, folder, known, path, h => by
    obtain ⟨entries, found, before, child, after, hentries, hfound, hsorted, hpath, -⟩ := mem_visit_cons h
    obtain ⟨names, rfl, hopens, hholds⟩ := mem_visit hpath
    have hchild : child ∈ visitor.sorted found := by
      rw [hsorted]
      simp
    obtain ⟨hentry, hread, haccepts⟩ := (mem_listed hfound).mp (mem_sorted.mp hchild)
    refine ⟨child.1 :: names, by simp, ⟨child.2, hread, haccepts, hopens⟩, ⟨entries, hentries, hentry⟩, hholds⟩

theorem not_mem_other {name other : ν} (hne : name ≠ other) (names : List ν) (found : κ) :
    folder ++ name :: names ∉ (visitor.visit folders levels (folder ++ [other]) found).values := by
  intro h
  obtain ⟨below, heq, -⟩ := mem_visit h
  rw [List.append_assoc] at heq
  exact hne (List.cons.inj (List.append_cancel_left heq)).1

theorem visit_raised {entries : List (ν × Bool)} {found : List (ν × κ)}
    (hentries : folders.entries folder = some entries) (hfound : visitor.listed level known entries = .ok found) :
    (visitor.visit folders (level :: levels) folder known).raised = true ↔
      ∃ child ∈ found, (visitor.visit folders levels (folder ++ [child.1]) child.2).raised = true := by
  rw [visit_cons hentries hfound, through_raised]
  simp only [mem_sorted]

/-- A walk that does not fail lists each folder it reaches, and fails in none of them. -/
theorem listed_of_not_raised {entries : List (ν × Bool)} (hentries : folders.entries folder = some entries)
    (hraised : (visitor.visit folders (level :: levels) folder known).raised = false) :
    ∃ found, visitor.listed level known entries = .ok found ∧
      ∀ child ∈ found, (visitor.visit folders levels (folder ++ [child.1]) child.2).raised = false := by
  cases hfound : visitor.listed level known entries with
  | error e =>
    rw [Visitor.visit, hentries] at hraised
    dsimp only at hraised
    rw [hfound] at hraised
    cases hraised
  | ok found =>
    refine ⟨found, rfl, fun child hchild => ?_⟩
    by_contra hbad
    rw [(visit_raised hentries hfound).mpr ⟨child, hchild, Bool.not_eq_false _ ▸ hbad⟩] at hraised
    cases hraised

/-- **A walk that does not fail yields a path that is there and open** once. -/
theorem count_visit [DecidableEq ν] : ∀ {levels : List σ} {folder : List ν} {known : κ} {names : List ν},
    (visitor.visit folders levels folder known).raised = false → visitor.Opens levels known names →
      folders.Holds folder names → (visitor.visit folders levels folder known).values.count (folder ++ names) = 1
  | [], folder, known, [], _, _, _ => by simp [Visitor.visit]
  | level :: levels, folder, known, name :: names, hraised, ⟨state, hread, haccepts, hopens⟩,
      ⟨⟨entries, hentries, hentry⟩, hholds⟩ => by
    obtain ⟨found, hfound, hnone⟩ := listed_of_not_raised hentries hraised
    have hchild : (name, state) ∈ visitor.sorted found :=
      mem_sorted.mpr ((mem_listed hfound).mpr ⟨hentry, hread, haccepts⟩)
    have hapart := sorted_apart hentries hfound
    obtain ⟨before, after, hsorted⟩ := List.append_of_mem hchild
    rw [hsorted] at hapart
    obtain ⟨-, hafter, hbefore⟩ := List.pairwise_append.mp hapart
    rw [visit_cons hentries hfound, through_values fun child hmem => hnone child (mem_sorted.mp hmem), hsorted,
      List.flatMap_append, List.flatMap_cons, List.count_append, List.count_append]
    have hzero : ∀ list : List (ν × κ), (∀ child ∈ list, name ≠ child.1) →
        (list.flatMap fun child => (visitor.visit folders levels (folder ++ [child.1]) child.2).values).count
          (folder ++ name :: names) = 0 := by
      intro list hne
      refine List.count_eq_zero.mpr fun hmem => ?_
      obtain ⟨child, hmem, hpath⟩ := List.mem_flatMap.mp hmem
      exact not_mem_other (hne child hmem) names child.2 hpath
    rw [hzero before fun child hmem => (hbefore child hmem _ List.mem_cons_self).symm,
      hzero after fun child hmem => (List.pairwise_cons.mp hafter).1 child hmem]
    have hself := count_visit (hnone _ (mem_sorted.mp hchild)) hopens hholds
    rw [List.append_assoc] at hself
    rw [Nat.zero_add, Nat.add_zero]
    exact hself

/-! ## 5. The order, and failures -/

/-- **The order of a walk** from that of the entries of one folder. What is known of a folder that is reached
    is described by `I`. -/
theorem visit_pairwise {I : List σ → List ν → κ → Prop} {R : List ν → List ν → Prop}
    (hstep : ∀ level levels folder known name found, I (level :: levels) folder known →
      visitor.read level known name = .ok (some found) → I levels (folder ++ [name]) found)
    (horder : ∀ level levels folder known child other, I (level :: levels) folder known →
      (∃ entries, folders.entries folder = some entries ∧ (child.1, true) ∈ entries ∧ (other.1, true) ∈ entries) →
      visitor.read level known child.1 = .ok (some child.2) → visitor.read level known other.1 = .ok (some other.2) →
      child.1 ≠ other.1 → visitor.key child ≤ visitor.key other →
      ∀ names names', visitor.Opens levels child.2 names → visitor.Opens levels other.2 names' →
        R (folder ++ child.1 :: names) (folder ++ other.1 :: names')) :
    ∀ {levels : List σ} {folder : List ν} {known : κ}, I levels folder known →
      (visitor.visit folders levels folder known).values.Pairwise R
  | [], folder, known, _ => List.pairwise_singleton _ _
  | level :: levels, folder, known, hreached => by
    cases hentries : folders.entries folder with
    | none =>
      rw [Visitor.visit, hentries]
      exact .nil
    | some entries =>
      cases hfound : visitor.listed level known entries with
      | error e =>
        rw [Visitor.visit, hentries]
        dsimp only
        rw [hfound]
        exact .nil
      | ok found =>
        rw [visit_cons hentries hfound]
        refine List.Pairwise.sublist through_prefix.sublist (List.pairwise_flatMap.mpr ⟨fun child hchild => ?_, ?_⟩)
        · obtain ⟨-, hread, -⟩ := (mem_listed hfound).mp (mem_sorted.mp hchild)
          exact visit_pairwise hstep horder (hstep _ _ _ _ _ _ hreached hread)
        · refine ((sorted_pairwise found).and (sorted_apart hentries hfound)).imp_of_mem fun {child other} hchild hother hboth => ?_
          obtain ⟨hentry, hread, -⟩ := (mem_listed hfound).mp (mem_sorted.mp hchild)
          obtain ⟨hentry', hread', -⟩ := (mem_listed hfound).mp (mem_sorted.mp hother)
          intro path hpath path' hpath'
          obtain ⟨names, rfl, hopens, -⟩ := mem_visit hpath
          obtain ⟨names', rfl, hopens', -⟩ := mem_visit hpath'
          rw [List.append_assoc, List.append_assoc]
          exact horder level levels folder known child other hreached ⟨entries, hentries, hentry, hentry'⟩ hread
            hread' hboth.2 hboth.1 names names' hopens hopens'

/-- A walk fails nowhere if no name fails in a folder that is reached. -/
theorem not_raised {I : List σ → List ν → κ → Prop}
    (hread : ∀ level levels folder known entries, I (level :: levels) folder known →
      folders.entries folder = some entries → ∀ entry ∈ entries, ∀ e, visitor.read level known entry.1 ≠ .error e)
    (hstep : ∀ level levels folder known entries name found, I (level :: levels) folder known →
      folders.entries folder = some entries → (name, true) ∈ entries →
      visitor.read level known name = .ok (some found) → visitor.accepts found = true →
      I levels (folder ++ [name]) found) :
    ∀ {levels : List σ} {folder : List ν} {known : κ}, I levels folder known →
      (visitor.visit folders levels folder known).raised = false
  | [], _, _, _ => rfl
  | level :: levels, folder, known, hreached => by
    cases hentries : folders.entries folder with
    | none =>
      rw [Visitor.visit, hentries]
    | some entries =>
      have hfound := listed_eq_ok.mpr ⟨hread level levels folder known entries hreached hentries, rfl⟩
      rw [← Bool.not_eq_true, visit_raised hentries hfound]
      rintro ⟨child, hchild, hraised⟩
      obtain ⟨hentry, hname, haccepts⟩ := (mem_listed hfound).mp hchild
      rw [not_raised hread hstep (hstep _ _ _ _ _ _ _ hreached hentries hentry hname haccepts)] at hraised
      cases hraised

theorem raised_of_error {entries : List (ν × Bool)} (hentries : folders.entries folder = some entries)
    {entry : ν × Bool} (hentry : entry ∈ entries) {e : ε} (hbad : visitor.read level known entry.1 = .error e) :
    (visitor.visit folders (level :: levels) folder known).raised = true := by
  by_contra hraised
  obtain ⟨found, hfound, -⟩ := listed_of_not_raised hentries (Bool.not_eq_true _ ▸ hraised)
  exact (listed_eq_ok.mp hfound).1 entry hentry e hbad

theorem raised_of_child {entries : List (ν × Bool)} (hentries : folders.entries folder = some entries)
    (hentry : (child.1, true) ∈ entries) (hread : visitor.read level known child.1 = .ok (some child.2))
    (haccepts : visitor.accepts child.2 = true)
    (hchild : (visitor.visit folders levels (folder ++ [child.1]) child.2).raised = true) :
    (visitor.visit folders (level :: levels) folder known).raised = true := by
  by_contra hraised
  obtain ⟨found, hfound, hnone⟩ := listed_of_not_raised hentries (Bool.not_eq_true _ ▸ hraised)
  rw [hnone child ((mem_listed hfound).mpr ⟨hentry, hread, haccepts⟩)] at hchild
  cases hchild

theorem mem_visit_first {name : ν} {names : List ν}
    (h : folder ++ name :: names ∈ (visitor.visit folders (level :: levels) folder known).values) :
    ∃ found, visitor.read level known name = .ok (some found) ∧
      folder ++ [name] ++ names ∈ (visitor.visit folders levels (folder ++ [name]) found).values := by
  obtain ⟨entries, found, before, child, after, hentries, hfound, hsorted, hpath, -⟩ := mem_visit_cons h
  obtain ⟨other, hother, -⟩ := mem_visit hpath
  rw [List.append_assoc] at hother
  obtain ⟨rfl, -⟩ := List.cons.inj (List.append_cancel_left hother)
  have hchild : child ∈ visitor.sorted found := by
    rw [hsorted]
    simp
  refine ⟨child.2, ((mem_listed hfound).mp (mem_sorted.mp hchild)).2.1, ?_⟩
  rw [List.append_assoc folder]
  exact hpath

/-- Nothing is yielded of a folder with a name that fails. -/
theorem not_mem_of_error {entries : List (ν × Bool)} (hentries : folders.entries folder = some entries)
    {entry : ν × Bool} (hentry : entry ∈ entries) {e : ε} (hbad : visitor.read level known entry.1 = .error e)
    (path : List ν) : path ∉ (visitor.visit folders (level :: levels) folder known).values := by
  intro h
  obtain ⟨entries', found, _, _, _, hentries', hfound, -⟩ := mem_visit_cons h
  obtain rfl := Option.some.inj (hentries.symm.trans hentries')
  exact (listed_eq_ok.mp hfound).1 entry hentry e hbad

/-- A path is not yielded behind a folder that fails. -/
theorem not_mem_of_first {entries : List (ν × Bool)} (hentries : folders.entries folder = some entries)
    {first : ν × κ} (hentry : (first.1, true) ∈ entries) (hread : visitor.read level known first.1 = .ok (some first.2))
    (haccepts : visitor.accepts first.2 = true)
    (hraised : (visitor.visit folders levels (folder ++ [first.1]) first.2).raised = true) {name : ν} {names : List ν}
    (hlt : ∀ found, visitor.read level known name = .ok (some found) →
      visitor.key first < visitor.key (name, found)) :
    folder ++ name :: names ∉ (visitor.visit folders (level :: levels) folder known).values := by
  intro h
  obtain ⟨entries', found, before, child, after, hentries', hfound, hsorted, hpath, hbefore⟩ := mem_visit_cons h
  obtain rfl := Option.some.inj (hentries.symm.trans hentries')
  obtain ⟨other, hother, -⟩ := mem_visit hpath
  rw [List.append_assoc] at hother
  obtain ⟨rfl, -⟩ := List.cons.inj (List.append_cancel_left hother)
  have hpairwise : (visitor.sorted found).Pairwise fun one two => visitor.key one ≤ visitor.key two :=
    sorted_pairwise found
  have hmem : first ∈ visitor.sorted found := mem_sorted.mpr ((mem_listed hfound).mpr ⟨hentry, hread, haccepts⟩)
  have hchild : child ∈ visitor.sorted found := by
    rw [hsorted]
    simp
  have hless := hlt child.2 ((mem_listed hfound).mp (mem_sorted.mp hchild)).2.1
  rw [hsorted] at hmem hpairwise
  rcases List.mem_append.mp hmem with hfirst | hmem
  · rw [hbefore first hfirst] at hraised
    cases hraised
  · rcases List.mem_cons.mp hmem with rfl | hafter
    · exact absurd hless (lt_irrefl _)
    · have hpair := (List.pairwise_append.mp hpairwise).2.1
      exact absurd hless ((List.pairwise_cons.mp hpair).1 first hafter).not_gt

section Parted

variable {entries : List (ν × Bool)} {found : List (ν × κ)}
  (hentries : folders.entries folder = some entries) (hfound : visitor.listed level known entries = .ok found)
  (hnone : ∀ child ∈ found, (visitor.visit folders levels (folder ++ [child.1]) child.2).raised = false)
include hentries hfound hnone

theorem visit_values : (visitor.visit folders (level :: levels) folder known).values =
    (visitor.sorted found).flatMap fun child => (visitor.visit folders levels (folder ++ [child.1]) child.2).values := by
  rw [visit_cons hentries hfound]
  exact through_values fun child hchild => hnone child (mem_sorted.mp hchild)

theorem sublist_visit {child : ν × κ} (hchild : child ∈ found) :
    List.Sublist (visitor.visit folders levels (folder ++ [child.1]) child.2).values
      (visitor.visit folders (level :: levels) folder known).values := by
  rw [visit_values hentries hfound hnone]
  have hmem : child ∈ visitor.sorted found := mem_sorted.mpr hchild
  obtain ⟨before, after, hsorted⟩ := List.append_of_mem hmem
  rw [hsorted, List.flatMap_append, List.flatMap_cons]
  exact (List.sublist_append_left _ _).trans (List.sublist_append_right _ _)

/-- Of two paths that part in a folder, the one that goes on by the lesser key is yielded first. -/
theorem pair_sublist_visit {child other : ν × κ} (hchild : child ∈ found) (hother : other ∈ found)
    (hlt : visitor.key child < visitor.key other) {path path' : List ν}
    (hpath : path ∈ (visitor.visit folders levels (folder ++ [child.1]) child.2).values)
    (hpath' : path' ∈ (visitor.visit folders levels (folder ++ [other.1]) other.2).values) :
    List.Sublist [path, path'] (visitor.visit folders (level :: levels) folder known).values := by
  rw [visit_values hentries hfound hnone]
  have hmem : child ∈ visitor.sorted found := mem_sorted.mpr hchild
  obtain ⟨before, after, hsorted⟩ := List.append_of_mem hmem
  have hpairwise : (visitor.sorted found).Pairwise fun one two => visitor.key one ≤ visitor.key two :=
    sorted_pairwise found
  rw [hsorted] at hpairwise
  have hafter : other ∈ after := by
    have hmem : other ∈ visitor.sorted found := mem_sorted.mpr hother
    rw [hsorted] at hmem
    rcases List.mem_append.mp hmem with hbefore | hmem
    · exact absurd hlt ((List.pairwise_append.mp hpairwise).2.2 other hbefore child List.mem_cons_self).not_gt
    · rcases List.mem_cons.mp hmem with rfl | hafter
      · exact absurd hlt (lt_irrefl _)
      · exact hafter
  rw [hsorted, List.flatMap_append, List.flatMap_cons]
  refine List.Sublist.trans ?_ (List.sublist_append_right _ _)
  exact (List.singleton_sublist.mpr hpath).append
    (List.singleton_sublist.mpr (List.mem_flatMap.mpr ⟨other, hafter, hpath'⟩))

end Parted

/-- **Two paths that part below some folders**: the one that goes on by the lesser key is yielded first. -/
theorem pair_sublist [DecidableEq ν] {name name' : ν} {names names' : List ν} :
    ∀ {above : List σ} {folder common : List ν} {known : κ},
      (visitor.visit folders (above ++ level :: levels) folder known).raised = false →
      visitor.Opens (above ++ level :: levels) known (common ++ name :: names) →
      visitor.Opens (above ++ level :: levels) known (common ++ name' :: names') →
      folders.Holds folder (common ++ name :: names) → folders.Holds folder (common ++ name' :: names') →
      common.length = above.length →
      (∀ middle found found', readDown visitor.read above known common = some middle →
        visitor.read level middle name = .ok (some found) → visitor.read level middle name' = .ok (some found') →
          visitor.key (name, found) < visitor.key (name', found')) →
      List.Sublist [folder ++ (common ++ name :: names), folder ++ (common ++ name' :: names')]
        (visitor.visit folders (above ++ level :: levels) folder known).values
  | [], folder, [], known, hraised, ⟨state, hread, haccepts, hopens⟩, ⟨state', hread', haccepts', hopens'⟩,
      ⟨⟨entries, hentries, hentry⟩, hholds⟩, ⟨⟨entries', hentries', hentry'⟩, hholds'⟩, _, hlt => by
    obtain rfl := Option.some.inj (hentries.symm.trans hentries')
    obtain ⟨found, hfound, hnone⟩ := listed_of_not_raised hentries hraised
    have hchild : (name, state) ∈ found := (mem_listed hfound).mpr ⟨hentry, hread, haccepts⟩
    have hother : (name', state') ∈ found := (mem_listed hfound).mpr ⟨hentry', hread', haccepts'⟩
    have hpath := List.count_pos_iff.mp ((count_visit (hnone _ hchild) hopens hholds).symm ▸ Nat.one_pos)
    have hpath' := List.count_pos_iff.mp ((count_visit (hnone _ hother) hopens' hholds').symm ▸ Nat.one_pos)
    rw [List.append_assoc] at hpath hpath'
    exact pair_sublist_visit hentries hfound hnone hchild hother (hlt known state state' rfl hread hread') hpath
      hpath'
  | first :: above, folder, head :: common, known, hraised, ⟨state, hread, haccepts, hopens⟩,
      ⟨state', hread', _, hopens'⟩, ⟨⟨entries, hentries, hentry⟩, hholds⟩, ⟨_, hholds'⟩, hlength, hlt => by
    obtain rfl := Option.some.inj (Except.ok.inj (hread.symm.trans hread'))
    obtain ⟨found, hfound, hnone⟩ := listed_of_not_raised hentries hraised
    have hchild : (head, state) ∈ found := (mem_listed hfound).mpr ⟨hentry, hread, haccepts⟩
    have hbelow := pair_sublist (hnone _ hchild) hopens hopens' hholds hholds' (Nat.succ.inj hlength)
      fun middle found found' hmiddle => hlt middle found found' (by rw [readDown, hread]; exact hmiddle)
    rw [List.append_assoc, List.append_assoc] at hbelow
    exact hbelow.trans (sublist_visit hentries hfound hnone hchild)
  | [], _, _ :: _, _, _, _, _, _, _, hlength, _ => by cases hlength
  | _ :: _, _, [], _, _, _, _, _, _, hlength, _ => by cases hlength

end Visits

end Ceres.Library
