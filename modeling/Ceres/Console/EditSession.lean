/-
  File:      Ceres/Console/EditSession.lean
  Subject:   THE EDIT SESSION ACROSS WORKSPACES (`console/app/workspace/edit-session.ts`: `afterFetch`, the
             watcher of the id, `saveEdit`).

  The session follows the id of the workspace it shows. The workspace itself is queried, the user's
  draft of it is asked for, and both come later, when the id may have moved on.

  * `Copy` -- data, and the workspace whose draft or saved data it was obtained from;
  * `step` -- switches, completions of the query, `afterFetch` up to its wait and after it, edits, undo
    and redo, and the writes of `saveEdit`;
  * `Belongs` -- the working copy, every draft and every write on its way are of their own workspace;
  * `Calm` -- a draft that arrives is of the workspace shown, or dropped; without one, so is the workspace;
  * **`copies_belong`** -- every state of a run belongs exactly when each of its steps is calm;
  * `draft_after_switch` -- a draft that arrives after a switch.
-/
import Ceres.Console.Draft
import Ceres.Library.Dict

namespace Ceres.Console.EditSession

open Ceres.Library
open Ceres.Console.Draft

set_option linter.unusedSectionVars false

variable {ι Λ M : Type} [DecidableEq ι] [DecidableEq Λ] [DecidableEq M]

/-! ## 1. The session -/

/-- Data, marked with the workspace whose draft or saved data it was obtained from. -/
structure Copy (ι Λ M : Type) where
  origin : ι
  data : WorkspaceData Λ M

/-- A draft that was asked for, and the answer once there is one: `none` inside it is no draft, or a
    failure. -/
structure Asked (ι Λ M : Type) where
  id : ι
  answer : Option (Option (Copy ι Λ M))

structure State (ι Λ M : Type) where
  /-- The workspace shown. -/
  id : ι
  /-- The id has changed and its watcher has not run. -/
  switched : Bool
  /-- The query's workspace. It may be of an id that was shown before. -/
  workspace : Option (Copy ι Λ M)
  data : Option (Copy ι Λ M)
  dataId : Option ι
  agreed : Option (WorkspaceData Λ M)
  history : History (Copy ι Λ M)
  asked : List (Asked ι Λ M)
  /-- The writes on their way, and those the server has answered. -/
  writes : List (ι × Copy ι Λ M)
  written : List (Copy ι Λ M)
  drafts : Dict ι (Copy ι Λ M)

/-- The user's drafts are there before the session is. -/
def State.initial (id : ι) (drafts : Dict ι (WorkspaceData Λ M)) : State ι Λ M where
  id := id
  switched := false
  workspace := none
  data := none
  dataId := none
  agreed := none
  history := History.clear
  asked := []
  writes := []
  written := []
  drafts := drafts.map fun draft => (draft.1, ⟨draft.1, draft.2⟩)

inductive Action (ι Λ M : Type) where
  | switch (id : ι)
  /-- The watcher of the id runs. -/
  | watch
  /-- The query of the id shown has its workspace, or none. -/
  | queried (saved : Option (WorkspaceData Λ M))
  | afterFetch
  /-- The server answers a request for a draft, or it fails. -/
  | answer (request : Nat) (fails : Bool)
  | arrive (request : Nat)
  | edit (data : WorkspaceData Λ M)
  | record
  | undo
  | redo
  | saveEdit
  /-- The server stores the oldest write. -/
  | store
  | agree (write : Nat)

namespace State

/-- The watcher of the id: the working copy and the history belong to the previous workspace. -/
def watch (s : State ι Λ M) : State ι Λ M :=
  { s with
    switched := false
    data := none
    dataId := none
    agreed := none
    history := History.clear }

/-- The query's workspace is not the one shown. -/
def outrun (s : State ι Λ M) : Bool := s.workspace.any fun workspace => decide (workspace.origin ≠ s.id)

/-- `afterFetch` up to its wait. -/
def afterFetch (s : State ι Λ M) : State ι Λ M :=
  if s.data.isSome || s.outrun then s else { s with asked := s.asked ++ [⟨s.id, none⟩] }

/-- `afterFetch` seeds the working copy. -/
def seed (s : State ι Λ M) (data : Option (Copy ι Λ M)) : State ι Λ M :=
  { s with
    data := data
    dataId := if data.isSome then some s.id else none
    agreed := data.map Copy.data
    history := match data with
      | some data => History.reset data
      | none => s.history }

/-- `afterFetch` after its wait. -/
def resume (s : State ι Λ M) (edit : Option (Copy ι Λ M)) : State ι Λ M :=
  if edit.isSome && s.outrun then s else s.seed (edit.or s.workspace)

def display (s : State ι Λ M) (moved : Option (History (Copy ι Λ M) × Copy ι Λ M)) : State ι Λ M :=
  match moved with
  | none => s
  | some (history, data) => { s with history := history, data := some data }

def recordHistory (s : State ι Λ M) : State ι Λ M :=
  match s.data with
  | none => s
  | some data =>
    { s with history := s.history.record (fun left right => decide (left.data = right.data)) data }

/-- An edit of the working copy stays a copy of its workspace. -/
def edit (s : State ι Λ M) (data : WorkspaceData Λ M) : State ι Λ M :=
  { s with data := s.data.map fun copy => ⟨copy.origin, data⟩ }

/-- `saveEdit` up to its wait. -/
def saveEdit (withoutChartSeriesIds : Λ → Λ) (s : State ι Λ M) : State ι Λ M :=
  match s.workspace, s.data with
  | some _, some data =>
    if s.dataId = some s.id ∧ isUnsaved withoutChartSeriesIds s.agreed (some data.data) = true then
      { s with writes := s.writes ++ [(s.id, data)] }
    else s
  | _, _ => s

/-- The server stores a write. -/
def stored (s : State ι Λ M) (write : ι × Copy ι Λ M) : State ι Λ M :=
  { s with
    drafts := s.drafts.set write.1 write.2
    written := s.written ++ [write.2] }

end State

def step (withoutChartSeriesIds : Λ → Λ) (s : State ι Λ M) : Action ι Λ M → Option (State ι Λ M)
  | .switch id => some { s with id := id, switched := true }
  | .watch => if s.switched then some s.watch else none
  | .queried saved => some { s with workspace := saved.map fun data => ⟨s.id, data⟩ }
  | .afterFetch => some s.afterFetch
  | .answer i fails =>
    s.asked[i]?.map fun request =>
      let answer := if fails then none else s.drafts.get request.id
      { s with asked := s.asked.set i { request with answer := some answer } }
  | .arrive i =>
    (s.asked[i]?.bind Asked.answer).map fun edit =>
      State.resume { s with asked := s.asked.eraseIdx i } edit
  | .edit data => some (s.edit data)
  | .record => some s.recordHistory
  | .undo => some (s.display s.history.back)
  | .redo => some (s.display s.history.forward)
  | .saveEdit => some (s.saveEdit withoutChartSeriesIds)
  | .store =>
    match s.writes with
    | [] => none
    | write :: writes => some (State.stored { s with writes := writes } write)
  | .agree i =>
    s.written[i]?.map fun copy =>
      { s with
        agreed := some copy.data
        written := s.written.eraseIdx i }

/-! ## 2. Whose copy it is -/

/-- The working copy, every draft and every write on its way are of their own workspace. -/
structure Belongs (s : State ι Λ M) : Prop where
  data : ∀ id ∈ s.dataId, ∀ copy ∈ s.data, copy.origin = id
  writes : ∀ write ∈ s.writes, write.2.origin = write.1
  drafts : ∀ draft ∈ s.drafts, draft.2.origin = draft.1

/-- A draft that arrives is of the workspace shown, or dropped since the query's workspace is not; and
    where none arrives the query's workspace is the one shown. -/
def Fits (s : State ι Λ M) (id : ι) : Option (Copy ι Λ M) → Prop
  | some _ => id = s.id ∨ s.outrun = true
  | none => s.outrun = false

instance (s : State ι Λ M) (id : ι) (edit : Option (Copy ι Λ M)) : Decidable (Fits s id edit) := by
  cases edit <;> unfold Fits <;> infer_instance

def Calm (s : State ι Λ M) : Action ι Λ M → Prop
  | .arrive i => ∀ request ∈ s.asked[i]?, ∀ edit ∈ request.answer, Fits s request.id edit
  | _ => True

structure Inv (s : State ι Λ M) : Prop where
  belongs : Belongs s
  history : ∀ id ∈ s.dataId, ∀ copy ∈ s.history.entries, copy.origin = id
  answers : ∀ request ∈ s.asked, ∀ edit ∈ request.answer, ∀ copy ∈ edit, copy.origin = request.id

theorem inv_initial (id : ι) (drafts : Dict ι (WorkspaceData Λ M)) : Inv (State.initial id drafts) := by
  refine ⟨⟨?_, ?_, ?_⟩, ?_, ?_⟩
  · exact fun id hid => absurd hid (by simp [State.initial])
  · exact fun write hwrite => absurd hwrite List.not_mem_nil
  · intro draft hdraft
    obtain ⟨stored, _, rfl⟩ := List.mem_map.mp hdraft
    rfl
  · exact fun id hid => absurd hid (by simp [State.initial])
  · exact fun request hrequest => absurd hrequest List.not_mem_nil

/-! ## 3. The steps -/

/-- What is reached in the history was recorded in it. -/
theorem mem_of_move {δ : Type} {h moved : History δ} {value : δ} {offset : Int}
    (hmove : h.move offset = some (moved, value)) : value ∈ h.entries ∧ moved.entries = h.entries := by
  unfold History.move at hmove
  split at hmove
  · exact absurd hmove (by simp)
  · obtain ⟨entry, hentry, heq⟩ := Option.map_eq_some_iff.mp hmove
    obtain ⟨rfl, rfl⟩ := Prod.mk.inj heq
    exact ⟨List.mem_of_getElem? hentry, rfl⟩

theorem mem_record {δ : Type} {equal : δ → δ → Bool} {h : History δ} {value entry : δ}
    (hentry : entry ∈ (h.record equal value).entries) : entry ∈ h.entries ∨ entry = value := by
  unfold History.record at hentry
  split at hentry
  · exact .inl hentry
  · rcases List.mem_append.mp hentry with hentry | hentry
    · exact .inl (List.mem_of_mem_take (List.mem_of_mem_drop hentry))
    · exact .inr (List.mem_singleton.mp hentry)

variable {s : State ι Λ M}

theorem watch_inv (h : Inv s) : Inv s.watch := by
  refine ⟨⟨?_, h.belongs.writes, h.belongs.drafts⟩, ?_, h.answers⟩
  · exact fun id hid => absurd hid (by simp [State.watch])
  · exact fun id hid => absurd hid (by simp [State.watch])

theorem afterFetch_inv (h : Inv s) : Inv s.afterFetch := by
  unfold State.afterFetch
  split
  · exact h
  · refine ⟨⟨h.belongs.data, h.belongs.writes, h.belongs.drafts⟩, h.history, ?_⟩
    intro request hrequest edit hedit
    rcases List.mem_append.mp hrequest with hrequest | hrequest
    · exact h.answers request hrequest edit hedit
    · rw [List.mem_singleton.mp hrequest] at hedit
      exact absurd hedit (by simp)

variable {request : Asked ι Λ M}

theorem answer_inv {i : Nat} (h : Inv s) (answer : Option (Copy ι Λ M))
    (hanswer : ∀ copy ∈ answer, s.drafts.get request.id = some copy) :
    Inv { s with asked := s.asked.set i { request with answer := some answer } } := by
  refine ⟨⟨h.belongs.data, h.belongs.writes, h.belongs.drafts⟩, h.history, ?_⟩
  intro other hother edit hedit copy hcopy
  rcases List.mem_or_eq_of_mem_set hother with hother | rfl
  · exact h.answers other hother edit hedit copy hcopy
  · rw [← Option.some.inj hedit] at hcopy
    exact h.belongs.drafts (request.id, copy) (Dict.mem_of_get (hanswer copy hcopy))

theorem display_inv (h : Inv s) (offset : Int) : Inv (s.display (s.history.move offset)) := by
  cases hmove : s.history.move offset with
  | none => exact h
  | some moved =>
    obtain ⟨hmem, hentries⟩ := mem_of_move hmove
    refine ⟨⟨?_, h.belongs.writes, h.belongs.drafts⟩, ?_, h.answers⟩
    · intro id hid copy hcopy
      rw [← Option.some.inj hcopy]
      exact h.history id hid _ hmem
    · intro id hid copy hcopy
      rw [State.display, hentries] at hcopy
      exact h.history id hid copy hcopy

theorem recordHistory_inv (h : Inv s) : Inv s.recordHistory := by
  unfold State.recordHistory
  cases hdata : s.data with
  | none => exact h
  | some data =>
    refine ⟨⟨?_, h.belongs.writes, h.belongs.drafts⟩, ?_, h.answers⟩
    · intro id hid copy hcopy
      rw [← Option.some.inj hcopy]
      exact h.belongs.data id hid data hdata
    · intro id hid copy hcopy
      rcases mem_record hcopy with hcopy | rfl
      · exact h.history id hid copy hcopy
      · exact h.belongs.data id hid copy hdata

theorem edit_inv (h : Inv s) (data : WorkspaceData Λ M) : Inv (s.edit data) := by
  refine ⟨⟨?_, h.belongs.writes, h.belongs.drafts⟩, h.history, h.answers⟩
  intro id hid copy hcopy
  obtain ⟨old, hold, rfl⟩ := Option.map_eq_some_iff.mp hcopy
  exact h.belongs.data id hid old hold

variable {withoutChartSeriesIds : Λ → Λ}

/-- **A write is sent** only for the workspace that the working copy was seeded from. -/
theorem saveEdit_inv (h : Inv s) : Inv (s.saveEdit withoutChartSeriesIds) := by
  unfold State.saveEdit
  split
  · rename_i data _ hdata
    split
    · rename_i hwritable
      refine ⟨⟨h.belongs.data, ?_, h.belongs.drafts⟩, h.history, h.answers⟩
      intro write hwrite
      rcases List.mem_append.mp hwrite with hwrite | hwrite
      · exact h.belongs.writes write hwrite
      · rw [List.mem_singleton.mp hwrite]
        exact h.belongs.data s.id hwritable.1 data hdata
    · exact h
  · exact h

theorem stored_inv {write : ι × Copy ι Λ M} {writes : List (ι × Copy ι Λ M)} (h : Inv s)
    (hwrites : s.writes = write :: writes) : Inv (State.stored { s with writes := writes } write) := by
  refine ⟨⟨h.belongs.data, ?_, ?_⟩, h.history, h.answers⟩
  · intro other hother
    refine h.belongs.writes other ?_
    rw [hwrites]
    exact List.mem_cons_of_mem _ hother
  · intro draft hdraft
    rcases Dict.mem_set hdraft with hdraft | rfl
    · exact h.belongs.drafts draft hdraft
    · refine h.belongs.writes write ?_
      rw [hwrites]
      exact List.mem_cons_self

/-- **A draft arrives.** What `afterFetch` seeds belongs exactly when the step is calm. -/
theorem resume_inv {i : Nat} {edit : Option (Copy ι Λ M)} (h : Inv s) (hrequest : s.asked[i]? = some request)
    (hedit : request.answer = some edit) (hfits : Fits s request.id edit) :
    Inv (State.resume { s with asked := s.asked.eraseIdx i } edit) := by
  have hanswers : ∀ other ∈ s.asked.eraseIdx i, ∀ edit ∈ other.answer, ∀ copy ∈ edit,
      copy.origin = other.id :=
    fun other hother => h.answers other (List.mem_of_mem_eraseIdx hother)
  have hdropped : Inv { s with asked := s.asked.eraseIdx i } :=
    ⟨⟨h.belongs.data, h.belongs.writes, h.belongs.drafts⟩, h.history, hanswers⟩
  -- a seeded copy of the workspace shown is all that the working copy and the history hold
  have hseed : ∀ data : Option (Copy ι Λ M), (∀ copy ∈ data, copy.origin = s.id) →
      Inv (State.seed { s with asked := s.asked.eraseIdx i } data) := by
    intro data hdata
    cases data with
    | none =>
      refine ⟨⟨?_, h.belongs.writes, h.belongs.drafts⟩, ?_, hanswers⟩
      · exact fun id hid => absurd hid (by simp [State.seed])
      · exact fun id hid => absurd hid (by simp [State.seed])
    | some copy =>
      have horigin := hdata copy rfl
      refine ⟨⟨?_, h.belongs.writes, h.belongs.drafts⟩, ?_, hanswers⟩
      · intro id hid other hother
        rw [← Option.some.inj hother, ← Option.some.inj hid]
        exact horigin
      · intro id hid other hother
        rw [List.mem_singleton.mp hother, ← Option.some.inj hid]
        exact horigin
  unfold State.resume
  cases edit with
  | some copy =>
    by_cases houtrun : s.outrun = true
    · rw [if_pos (by simpa [State.outrun] using houtrun)]
      exact hdropped
    · rw [if_neg (by simpa [State.outrun] using houtrun)]
      refine hseed (some copy) fun other hother => ?_
      rw [← Option.some.inj hother, ← hfits.resolve_right houtrun]
      exact h.answers request (List.mem_of_getElem? hrequest) (some copy) hedit copy rfl
  | none =>
    rw [if_neg (by simp)]
    refine hseed s.workspace fun workspace hworkspace => ?_
    have hshown : s.outrun = false := hfits
    rw [Option.mem_def] at hworkspace
    simpa [State.outrun, hworkspace] using hshown

/-- A step that leaves the session as it should be is calm. -/
theorem calm_of_belongs {i : Nat} {edit : Option (Copy ι Λ M)} (h : Inv s)
    (hrequest : s.asked[i]? = some request) (hedit : request.answer = some edit)
    (hbelongs : Belongs (State.resume { s with asked := s.asked.eraseIdx i } edit)) : Fits s request.id edit := by
  unfold State.resume at hbelongs
  cases edit with
  | some copy =>
    by_cases houtrun : s.outrun = true
    · exact .inr houtrun
    · rw [if_neg (by simpa [State.outrun] using houtrun)] at hbelongs
      have horigin : copy.origin = s.id := hbelongs.data s.id rfl copy rfl
      have hrequested := h.answers request (List.mem_of_getElem? hrequest) (some copy) hedit copy rfl
      exact .inl (hrequested.symm.trans horigin)
  | none =>
    rw [if_neg (by simp)] at hbelongs
    cases hworkspace : s.workspace with
    | none => simp [Fits, State.outrun, hworkspace]
    | some workspace =>
      have hseeded : State.seed { s with asked := s.asked.eraseIdx i } (none.or s.workspace) =
          State.seed { s with asked := s.asked.eraseIdx i } (some workspace) := by rw [hworkspace]; rfl
      have horigin : workspace.origin = s.id := by
        have hdata := hbelongs.data
        rw [hseeded] at hdata
        exact hdata s.id rfl workspace rfl
      simp [Fits, State.outrun, hworkspace, horigin]

/-- **One step** that is calm. -/
theorem step_inv (s : State ι Λ M) (a : Action ι Λ M) (s' : State ι Λ M) (h : Inv s)
    (hstep : step withoutChartSeriesIds s a = some s') (hcalm : Calm s a) : Inv s' := by
  cases a with
  | switch id =>
    obtain rfl := Option.some.inj hstep
    exact ⟨⟨h.belongs.data, h.belongs.writes, h.belongs.drafts⟩, h.history, h.answers⟩
  | watch =>
    obtain ⟨_, heq⟩ := Option.ite_none_right_eq_some.mp hstep
    obtain rfl := Option.some.inj heq
    exact watch_inv h
  | queried saved =>
    obtain rfl := Option.some.inj hstep
    exact ⟨⟨h.belongs.data, h.belongs.writes, h.belongs.drafts⟩, h.history, h.answers⟩
  | afterFetch =>
    obtain rfl := Option.some.inj hstep
    exact afterFetch_inv h
  | answer i fails =>
    obtain ⟨request, _, rfl⟩ := Option.map_eq_some_iff.mp hstep
    refine answer_inv h _ fun copy hcopy => ?_
    cases fails with
    | true => exact absurd hcopy (by simp)
    | false => exact hcopy
  | arrive i =>
    obtain ⟨edit, hedit, rfl⟩ := Option.map_eq_some_iff.mp hstep
    obtain ⟨request, hrequest, hedit⟩ := Option.bind_eq_some_iff.mp hedit
    exact resume_inv h hrequest hedit (hcalm request hrequest edit hedit)
  | edit data =>
    obtain rfl := Option.some.inj hstep
    exact edit_inv h data
  | record =>
    obtain rfl := Option.some.inj hstep
    exact recordHistory_inv h
  | undo =>
    obtain rfl := Option.some.inj hstep
    exact display_inv h _
  | redo =>
    obtain rfl := Option.some.inj hstep
    exact display_inv h _
  | saveEdit =>
    obtain rfl := Option.some.inj hstep
    exact saveEdit_inv h
  | store =>
    cases hwrites : s.writes with
    | nil =>
      simp only [step, hwrites] at hstep
      exact absurd hstep (by simp)
    | cons write writes =>
      simp only [step, hwrites] at hstep
      obtain rfl := Option.some.inj hstep
      exact stored_inv h hwrites
  | agree i =>
    obtain ⟨copy, _, rfl⟩ := Option.map_eq_some_iff.mp hstep
    exact ⟨⟨h.belongs.data, h.belongs.writes, h.belongs.drafts⟩, h.history, h.answers⟩

theorem calm_of_disabled (s : State ι Λ M) (a : Action ι Λ M)
    (h : step withoutChartSeriesIds s a = none) : Calm s a := by
  cases a with
  | arrive i =>
    intro request hrequest edit hedit
    rw [Option.mem_def] at hrequest hedit
    simp only [step, hrequest, Option.bind_some, hedit, Option.map_some] at h
    exact absurd h (by simp)
  | _ => trivial

theorem calm_of_step (s : State ι Λ M) (a : Action ι Λ M) (s' : State ι Λ M) (h : Inv s)
    (hstep : step withoutChartSeriesIds s a = some s') (hbelongs : Belongs s') : Calm s a := by
  cases a with
  | arrive i =>
    intro request hrequest edit hedit
    rw [Option.mem_def] at hrequest hedit
    simp only [step, hrequest, Option.bind_some, hedit, Option.map_some] at hstep
    rw [← Option.some.inj hstep] at hbelongs
    exact calm_of_belongs h hrequest hedit hbelongs
  | _ => trivial

/-- **A working copy belongs to its workspace**, and so does every draft that is written, in every state
    of a run exactly when each draft that arrives in it is of the workspace shown by then, or is dropped
    since the query's workspace is not the one shown; and, where there is no draft, that one is. -/
theorem copies_belong (withoutChartSeriesIds : Λ → Λ) (id : ι) (drafts : Dict ι (WorkspaceData Λ M))
    (actions : List (Action ι Λ M)) :
    Always (step withoutChartSeriesIds) Belongs (State.initial id drafts) actions ↔
      Along (step withoutChartSeriesIds) Calm (State.initial id drafts) actions :=
  always_iff_along (fun _ h => h.belongs) calm_of_disabled calm_of_step step_inv actions _
    (inv_initial id drafts)

/-- **A draft that arrives after a switch.** It was asked for the first workspace; the second is shown
    and fetched by the time it comes. -/
theorem draft_after_switch :
    ¬ ∀ (id : String) (drafts : Dict String (WorkspaceData Nat Unit)) (actions : List (Action String Nat Unit)),
      Always (step fun layout => layout) Belongs (State.initial id drafts) actions := by
  intro h
  have hrun := h "a" [("a", ⟨1, none⟩)]
    [.queried (some ⟨0, none⟩), .afterFetch, .answer 0 false, .switch "b", .watch,
      .queried (some ⟨2, none⟩), .afterFetch, .arrive 0]
  have hlast := (hrun.2 _ rfl).2 _ rfl |>.2 _ rfl |>.2 _ rfl |>.2 _ rfl |>.2 _ rfl |>.2 _ rfl |>.2 _ rfl
  exact absurd (Belongs.data hlast "b" rfl ⟨"a", ⟨1, none⟩⟩ rfl) (by simp)

end Ceres.Console.EditSession
