/-
  File:      Ceres/Console/Draft.lean
  Subject:   THE DRAFT OF A WORKSPACE (`console/app/workspace/draft.ts`: `DraftSync`; `edit-session.ts`:
             `saveEdit`, `takeNewerDraft`, `save`, `revert`; `console/app/history.ts`).

  A tab shows a working copy and remembers the value it last agreed on with the server. What differs
  from that value is an edit still to write. The operations wait for the server in between, and the user
  goes on editing meanwhile.

  * `step` -- the operations of one tab, cut at every wait; the server handles the calls in the order
    they are sent and its replies arrive in any order;
  * `seen` -- the draft, or the saved workspace when there is none, that the tab last wrote or read;
  * `Calm` -- where an agreement is recorded and no other is on its way, it is for the value seen;
  * **`agreed_is_written`** -- along calm steps, with nothing in flight, a working copy without an edit to
    write is what the tab last wrote or read;
  * `edit_taken_for_saved` -- an edit made while a revert is being written;
  * `comes_to_rest` -- in every order of handling and arriving nothing is left in flight, and one save
    then leaves nothing to write.
-/
import Ceres.Library.Run

namespace Ceres.Console.Draft

open Ceres.Library

set_option linter.unusedSectionVars false

/-! ## 1. The working copy -/

/-- A layout, and what only presents it. -/
structure WorkspaceData (Λ M : Type) where
  layout : Λ
  presentation : Option M
  deriving DecidableEq

variable {Λ M : Type} [DecidableEq Λ] [DecidableEq M]

/-- The data that a draft carries. -/
def withoutMeta (data : WorkspaceData Λ M) : WorkspaceData Λ M := { data with presentation := none }

/-- A linear history of values with a current entry; the index is -1 while there are none. -/
structure History (δ : Type) where
  entries : List δ
  index : Int

namespace History

variable {δ : Type}

/-- The most entries kept. -/
def limit : Nat := 50

def current (h : History δ) : Int := min h.index (h.entries.length - 1)

def reset (value : δ) : History δ := ⟨[value], 0⟩

def clear : History δ := ⟨[], -1⟩

/-- A value equal to the current entry changes nothing; any other drops the entries ahead. -/
def record (equal : δ → δ → Bool) (h : History δ) (value : δ) : History δ :=
  if decide (0 ≤ h.current) && h.entries[h.current.toNat]?.any (equal value) then h
  else
    let kept := (h.entries.take (h.current + 1).toNat).drop (h.current + 2 - limit).toNat ++ [value]
    ⟨kept, kept.length - 1⟩

def move (h : History δ) (offset : Int) : Option (History δ × δ) :=
  if h.current < 0 ∨ h.current + offset < 0 then none
  else
    h.entries[(h.current + offset).toNat]?.map fun value =>
      ({ h with index := h.current + offset }, value)

def back (h : History δ) : Option (History δ × δ) := h.move (-1)

def forward (h : History δ) : Option (History δ × δ) := h.move 1

end History

section sync

-- how chart series ids, minted anew with every parse, are left out of a comparison
variable (withoutChartSeriesIds : Λ → Λ)

def comparableWorkspaceData (data : WorkspaceData Λ M) : Λ :=
  withoutChartSeriesIds (withoutMeta data).layout

def same (left right : WorkspaceData Λ M) : Bool :=
  decide (comparableWorkspaceData withoutChartSeriesIds left =
    comparableWorkspaceData withoutChartSeriesIds right)

/-- Whether `data` holds an edit this tab has not written yet. -/
def isUnsaved (agreed data : Option (WorkspaceData Λ M)) : Bool :=
  data.any fun data => agreed.all fun agreed => !same withoutChartSeriesIds data agreed

/-- What the tab shows instead of `data` once the server holds `server`. -/
def incoming (agreed data server : Option (WorkspaceData Λ M)) : Option (WorkspaceData Λ M) :=
  match data, server with
  | some data, some server =>
    if isUnsaved withoutChartSeriesIds agreed (some data) || same withoutChartSeriesIds data server then
      none
    else some server
  | _, _ => none

end sync

/-! ## 2. The tab and the server -/

/-- What writes a draft. -/
inductive Writer where
  | saveEdit
  | revert
  deriving DecidableEq

/-- What goes on once the workspace was fetched. -/
inductive Next where
  | nothing
  | revert
  | takeNewerDraft
  deriving DecidableEq

inductive Call (δ : Type) where
  | assignEdit (value : δ) (writer : Writer)
  | update (value : δ)
  | fetch (next : Next)
  | getEdit

inductive Reply (δ : Type) where
  | assigned (value : δ) (writer : Writer)
  | updated (value : δ)
  /-- The listing that `update` waits for before `save` goes on. -/
  | listedUpdate (value : δ)
  | fetched (saved : δ) (next : Next)
  /-- The listing that `refresh` waits for before `revert` goes on. -/
  | listed
  | edit (draft : Option δ)

structure State (Λ M : Type) where
  draft : Option (WorkspaceData Λ M)
  saved : WorkspaceData Λ M
  data : WorkspaceData Λ M
  agreed : Option (WorkspaceData Λ M)
  /-- The saved workspace as the tab has it. -/
  workspace : WorkspaceData Λ M
  history : History (WorkspaceData Λ M)
  /-- The calls the server has not handled, in order. -/
  sent : List (Call (WorkspaceData Λ M))
  /-- The replies that have not arrived. -/
  replies : List (Reply (WorkspaceData Λ M))
  /-- What this tab last wrote or read: of the draft, and of the saved workspace. -/
  seenDraft : Option (WorkspaceData Λ M)
  seenSaved : WorkspaceData Λ M

/-- The tab has loaded its workspace. -/
def State.loaded (draft : Option (WorkspaceData Λ M)) (saved : WorkspaceData Λ M) : State Λ M where
  draft := draft
  saved := saved
  data := draft.getD saved
  agreed := some (draft.getD saved)
  workspace := saved
  history := History.reset (draft.getD saved)
  sent := []
  replies := []
  seenDraft := draft
  seenSaved := saved

/-- The draft, or the saved workspace when there is none, that this tab last wrote or read. -/
def State.seen (s : State Λ M) : WorkspaceData Λ M := s.seenDraft.getD s.seenSaved

inductive Action (Λ M : Type) where
  | edit (value : WorkspaceData Λ M)
  /-- The debounced snapshot of the working copy. -/
  | record
  | undo
  | redo
  | saveEdit
  | save
  | revert
  | takeNewerDraft
  /-- The server handles the oldest call. -/
  | handle
  /-- A reply arrives. -/
  | arrive (reply : Nat)
  /-- Another tab writes a draft or saves the workspace. -/
  | elsewhere (draft : Option (WorkspaceData Λ M)) (saved : WorkspaceData Λ M)

namespace State

def send (s : State Λ M) (call : Call (WorkspaceData Λ M)) : State Λ M :=
  { s with sent := s.sent ++ [call] }

def reply (s : State Λ M) (reply : Reply (WorkspaceData Λ M)) : State Λ M :=
  { s with replies := s.replies ++ [reply] }

def agree (s : State Λ M) (data : WorkspaceData Λ M) : State Λ M := { s with agreed := some data }

def display (s : State Λ M) (moved : Option (History (WorkspaceData Λ M) × WorkspaceData Λ M)) :
    State Λ M :=
  match moved with
  | none => s
  | some (history, data) => { s with history := history, data := data }

/-- The server handles a call. -/
def serve (s : State Λ M) : Call (WorkspaceData Λ M) → State Λ M
  | .assignEdit value writer =>
    { s with
      draft := some (withoutMeta value)
      seenDraft := some (withoutMeta value)
      replies := s.replies ++ [.assigned value writer] }
  | .update value =>
    { s with
      saved := value
      seenSaved := value
      replies := s.replies ++ [.updated value] }
  | .fetch next =>
    { s with
      seenSaved := s.saved
      replies := s.replies ++ [.fetched s.saved next] }
  | .getEdit =>
    { s with
      seenDraft := s.draft
      replies := s.replies ++ [.edit s.draft] }

/-- What goes on once the workspace was fetched. -/
def proceed (s : State Λ M) : Next → State Λ M
  | .nothing => s
  | .revert => s.reply .listed
  | .takeNewerDraft => s.send .getEdit

section tab

variable (withoutChartSeriesIds : Λ → Λ)

/-- A draft another tab wrote is where this tab starts over. -/
def take (s : State Λ M) (server : WorkspaceData Λ M) : State Λ M :=
  match incoming withoutChartSeriesIds s.agreed (some s.data) (some server) with
  | none => s
  | some next =>
    { s with
      agreed := some next
      history := History.reset next
      data := next }

/-- A reply arrives at the tab. -/
def receive (s : State Λ M) : Reply (WorkspaceData Λ M) → State Λ M
  | .assigned value .saveEdit => s.agree value
  -- a revert agrees on the working copy as it is by then
  | .assigned _ .revert => s.agree s.data
  | .updated value => s.reply (.listedUpdate value)
  | .listedUpdate value => (s.agree value).send (.fetch .nothing)
  | .fetched saved next => proceed { s with workspace := saved } next
  | .listed => send { s with data := s.workspace } (.assignEdit s.workspace .revert)
  | .edit draft => s.take withoutChartSeriesIds (draft.getD s.workspace)

def saveEdit (s : State Λ M) : State Λ M :=
  if isUnsaved withoutChartSeriesIds s.agreed (some s.data) then s.send (.assignEdit s.data .saveEdit)
  else s

def takeNewerDraft (s : State Λ M) : State Λ M :=
  if isUnsaved withoutChartSeriesIds s.agreed (some s.data) then s else s.send (.fetch .takeNewerDraft)

end tab

end State

def step (withoutChartSeriesIds : Λ → Λ) (s : State Λ M) : Action Λ M → Option (State Λ M)
  | .edit value => some { s with data := value }
  | .record => some { s with history := s.history.record (fun left right => decide (left = right)) s.data }
  | .undo => some (s.display s.history.back)
  | .redo => some (s.display s.history.forward)
  | .saveEdit => some (s.saveEdit withoutChartSeriesIds)
  | .save => some (s.send (.update s.data))
  | .revert => some (s.send (.fetch .revert))
  | .takeNewerDraft => some (s.takeNewerDraft withoutChartSeriesIds)
  | .handle =>
    match s.sent with
    | [] => none
    | call :: sent => some (State.serve { s with sent := sent } call)
  | .arrive i =>
    s.replies[i]?.map fun reply =>
      State.receive withoutChartSeriesIds { s with replies := s.replies.eraseIdx i } reply
  | .elsewhere draft saved => some { s with draft := draft, saved := saved }

/-! ## 3. What an agreement is for -/

/-- The call ends in an agreement. -/
def Call.Agrees {δ : Type} : Call δ → Prop
  | .fetch next => next ≠ .nothing
  | _ => True

/-- The reply ends in an agreement. -/
def Reply.Agrees {δ : Type} : Reply δ → Prop
  | .fetched _ next => next ≠ .nothing
  | _ => True

instance {δ : Type} (call : Call δ) : Decidable call.Agrees := by
  cases call <;> unfold Call.Agrees <;> infer_instance

instance {δ : Type} (reply : Reply δ) : Decidable reply.Agrees := by
  cases reply <;> unfold Reply.Agrees <;> infer_instance

/-- An agreement is on its way. -/
def Pending (s : State Λ M) : Prop :=
  (∃ call ∈ s.sent, call.Agrees) ∨ ∃ reply ∈ s.replies, reply.Agrees

instance (s : State Λ M) : Decidable (Pending s) := by
  unfold Pending
  infer_instance

section agreement

variable (withoutChartSeriesIds : Λ → Λ)

/-- The tab agrees on what it last wrote or read. -/
def Settled (s : State Λ M) : Prop :=
  ∃ agreed ∈ s.agreed, same withoutChartSeriesIds agreed s.seen = true

instance (s : State Λ M) : Decidable (Settled withoutChartSeriesIds s) := by
  unfold Settled
  infer_instance

/-- What a reply records is for the value seen. -/
def Fits (s : State Λ M) : Reply (WorkspaceData Λ M) → Prop
  | .assigned value .saveEdit => same withoutChartSeriesIds value s.seen = true
  | .assigned _ .revert => same withoutChartSeriesIds s.data s.seen = true
  | .listedUpdate value => same withoutChartSeriesIds value s.seen = true
  | .edit draft =>
      if isUnsaved withoutChartSeriesIds s.agreed (some s.data) = true then
        Settled withoutChartSeriesIds s
      else same withoutChartSeriesIds (draft.getD s.workspace) s.seen = true
  | _ => True

instance (s : State Λ M) (reply : Reply (WorkspaceData Λ M)) :
    Decidable (Fits withoutChartSeriesIds s reply) := by
  unfold Fits
  split <;> infer_instance

/-- The call reads the saved workspace for nothing but to show it, and finds what is seen. -/
def FitsCall (s : State Λ M) : Call (WorkspaceData Λ M) → Prop
  | .fetch .nothing => s.seenDraft.isSome = true ∨ same withoutChartSeriesIds s.seenSaved s.saved = true
  | _ => True

instance (s : State Λ M) (call : Call (WorkspaceData Λ M)) :
    Decidable (FitsCall withoutChartSeriesIds s call) := by
  unfold FitsCall
  split <;> infer_instance

/-- An agreement with no other on its way is for the value that the tab last wrote or read. -/
def Calm (s : State Λ M) : Action Λ M → Prop
  | .handle => ∀ call ∈ s.sent.head?, Pending { s with sent := s.sent.tail } ∨
      FitsCall withoutChartSeriesIds s call
  | .arrive i => ∀ reply ∈ s.replies[i]?, Pending { s with replies := s.replies.eraseIdx i } ∨
      Fits withoutChartSeriesIds s reply
  | _ => True

instance (s : State Λ M) (a : Action Λ M) : Decidable (Calm withoutChartSeriesIds s a) := by
  cases a <;> unfold Calm <;> infer_instance

/-- The tab agrees on what is seen, or an agreement is on its way. -/
def Inv (s : State Λ M) : Prop := Settled withoutChartSeriesIds s ∨ Pending s

end agreement

section proofs

variable {withoutChartSeriesIds : Λ → Λ}

variable {s : State Λ M} {call : Call (WorkspaceData Λ M)}

theorem pending_send (h : Pending s) : Pending (s.send call) := by
  refine h.imp_left fun hsent => ?_
  obtain ⟨other, hother, hagrees⟩ := hsent
  exact ⟨other, List.mem_append_left _ hother, hagrees⟩

theorem pending_sent (h : call.Agrees) : Pending (s.send call) :=
  .inl ⟨call, List.mem_append_right _ (List.mem_singleton_self call), h⟩

theorem inv_send (h : Inv withoutChartSeriesIds s) :
    Inv withoutChartSeriesIds (s.send call) := h.imp id pending_send

variable {reply : Reply (WorkspaceData Λ M)}

theorem pending_reply (h : reply.Agrees) : Pending (s.reply reply) :=
  .inr ⟨reply, List.mem_append_right _ (List.mem_singleton_self reply), h⟩

theorem same_comm (left right : WorkspaceData Λ M) :
    same withoutChartSeriesIds left right = same withoutChartSeriesIds right left := by
  unfold same
  exact decide_eq_decide.mpr eq_comm

theorem same_trans {a b c : WorkspaceData Λ M} (hab : same withoutChartSeriesIds a b = true)
    (hbc : same withoutChartSeriesIds b c = true) : same withoutChartSeriesIds a c = true := by
  unfold same at *
  exact decide_eq_true ((of_decide_eq_true hab).trans (of_decide_eq_true hbc))

theorem same_refl (a : WorkspaceData Λ M) : same withoutChartSeriesIds a a = true :=
  decide_eq_true rfl

theorem agreed_of_not_unsaved {agreed : Option (WorkspaceData Λ M)} {data : WorkspaceData Λ M}
    (h : isUnsaved withoutChartSeriesIds agreed (some data) = false) :
    ∃ value ∈ agreed, same withoutChartSeriesIds data value = true := by
  cases agreed with
  | none => exact absurd h (by simp [isUnsaved])
  | some value => exact ⟨value, rfl, by simpa [isUnsaved] using h⟩

theorem serve_inv {sent : List (Call (WorkspaceData Λ M))} (h : Inv withoutChartSeriesIds s)
    (hsent : s.sent = call :: sent)
    (hcalm : Pending { s with sent := sent } ∨ FitsCall withoutChartSeriesIds s call) :
    Inv withoutChartSeriesIds (State.serve { s with sent := sent } call) := by
  cases call with
  | assignEdit value writer =>
    exact .inr (.inr ⟨_, List.mem_append_right _ (List.mem_singleton_self _), trivial⟩)
  | update value =>
    exact .inr (.inr ⟨_, List.mem_append_right _ (List.mem_singleton_self _), trivial⟩)
  | getEdit =>
    exact .inr (.inr ⟨_, List.mem_append_right _ (List.mem_singleton_self _), trivial⟩)
  | fetch next =>
    by_cases hnext : next = .nothing
    · -- nobody agrees after this read, so it has to find what is seen
      subst hnext
      have hpending : Pending { s with sent := sent } →
          Pending (State.serve { s with sent := sent } (.fetch .nothing)) := by
        intro hpending
        refine hpending.imp_right fun hreplies => ?_
        obtain ⟨reply, hreply, hagrees⟩ := hreplies
        exact ⟨reply, List.mem_append_left _ hreply, hagrees⟩
      rcases hcalm with hother | hfits
      · exact .inr (hpending hother)
      · rcases h with hsettled | hold
        · obtain ⟨agreed, hagreed, hsame⟩ := hsettled
          refine .inl ⟨agreed, hagreed, ?_⟩
          cases hdraft : s.seenDraft with
          | some draft =>
            rw [State.seen, hdraft] at hsame
            simpa [State.serve, State.seen, hdraft] using hsame
          | none =>
            rw [State.seen, hdraft] at hsame
            have hsaved := hfits.resolve_left (by simp [hdraft])
            have := same_trans hsame hsaved
            simpa [State.serve, State.seen, hdraft] using this
        · refine .inr (hpending ?_)
          rcases hold with hold | hold
          · obtain ⟨call, hcall, hagrees⟩ := hold
            rw [hsent] at hcall
            rcases List.mem_cons.mp hcall with rfl | hcall
            · exact absurd rfl hagrees
            · exact .inl ⟨call, hcall, hagrees⟩
          · exact .inr hold
    · exact .inr (.inr ⟨_, List.mem_append_right _ (List.mem_singleton_self _), hnext⟩)

theorem take_frame (s : State Λ M) (server : WorkspaceData Λ M) :
    (s.take withoutChartSeriesIds server).sent = s.sent ∧
      (s.take withoutChartSeriesIds server).replies = s.replies := by
  unfold State.take
  split
  · exact ⟨rfl, rfl⟩
  · exact ⟨rfl, rfl⟩

/-- A newer draft is taken, or the tab has it, or it keeps an edit of its own. -/
theorem take_settled {server : WorkspaceData Λ M}
    (h : if isUnsaved withoutChartSeriesIds s.agreed (some s.data) = true then Settled
      withoutChartSeriesIds s else same withoutChartSeriesIds server s.seen = true) :
    Settled withoutChartSeriesIds (s.take withoutChartSeriesIds server) := by
  unfold State.take incoming
  by_cases hunsaved : isUnsaved withoutChartSeriesIds s.agreed (some s.data) = true
  · rw [if_pos hunsaved] at h
    simp only [hunsaved, Bool.true_or, if_true]
    exact h
  · rw [if_neg hunsaved] at h
    by_cases hsame : same withoutChartSeriesIds s.data server = true
    · simp only [hsame, Bool.or_true, if_true]
      obtain ⟨agreed, hagreed, hdata⟩ := agreed_of_not_unsaved (by simpa using hunsaved)
      refine ⟨agreed, hagreed, ?_⟩
      rw [same_comm] at hdata
      exact same_trans (same_trans hdata hsame) h
    · simp only [hunsaved, hsame, Bool.or_self, Bool.false_eq_true, if_false]
      exact ⟨server, rfl, h⟩

/-- A reply that ends in no agreement is not missed. -/
theorem pending_erase {i : Nat} (hreply : s.replies[i]? = some reply) (hagrees : ¬ reply.Agrees) (h : Pending s) :
    Pending { s with replies := s.replies.eraseIdx i } := by
  refine h.imp_right fun hreplies => ?_
  obtain ⟨other, hother, hother'⟩ := hreplies
  obtain ⟨j, hj⟩ := List.getElem?_of_mem hother
  refine ⟨other, List.mem_eraseIdx_iff_getElem?.mpr ⟨j, fun heq => ?_, hj⟩, hother'⟩
  rw [heq, hreply] at hj
  exact hagrees (Option.some.inj hj ▸ hother')

theorem receive_inv {i : Nat} (h : Inv withoutChartSeriesIds s) (hreply : s.replies[i]? = some reply)
    (hcalm : Pending { s with replies := s.replies.eraseIdx i } ∨ Fits withoutChartSeriesIds s reply) :
    Inv withoutChartSeriesIds
      (State.receive withoutChartSeriesIds { s with replies := s.replies.eraseIdx i } reply) := by
  cases reply with
  | assigned value writer =>
    cases writer with
    | saveEdit => exact hcalm.symm.imp (fun hfits => ⟨value, rfl, hfits⟩) id
    | revert => exact hcalm.symm.imp (fun hfits => ⟨s.data, rfl, hfits⟩) id
  | updated value => exact .inr (pending_reply trivial)
  | listedUpdate value => exact hcalm.symm.imp (fun hfits => ⟨value, rfl, hfits⟩) pending_send
  | fetched saved next =>
    cases next with
    | nothing => exact h.imp id (pending_erase hreply fun hagrees => hagrees rfl)
    | revert => exact .inr (pending_reply trivial)
    | takeNewerDraft => exact .inr (pending_sent trivial)
  | listed => exact .inr (pending_sent trivial)
  | edit draft =>
    rcases hcalm with hpending | hfits
    · obtain ⟨hsent, hreplies⟩ := @take_frame _ _ _ _ withoutChartSeriesIds
        { s with replies := s.replies.eraseIdx i } (draft.getD s.workspace)
      refine .inr ?_
      unfold Pending State.receive
      rw [hsent, hreplies]
      exact hpending
    · have hsettled := @take_settled _ _ _ _ withoutChartSeriesIds
        { s with replies := s.replies.eraseIdx i } (draft.getD s.workspace) hfits
      exact .inl hsettled

theorem display_inv (h : Inv withoutChartSeriesIds s)
    (moved : Option (History (WorkspaceData Λ M) × WorkspaceData Λ M)) :
    Inv withoutChartSeriesIds (s.display moved) := by
  cases moved with
  | none => exact h
  | some entry => exact h

/-- **One step** of a calm run. -/
theorem step_inv (s : State Λ M) (a : Action Λ M) (s' : State Λ M) (h : Inv withoutChartSeriesIds s)
    (hcalm : Calm withoutChartSeriesIds s a) (hstep : step withoutChartSeriesIds s a = some s') :
    Inv withoutChartSeriesIds s' := by
  cases a with
  | edit value =>
    obtain rfl := Option.some.inj hstep
    exact h
  | record =>
    obtain rfl := Option.some.inj hstep
    exact h
  | undo =>
    obtain rfl := Option.some.inj hstep
    exact display_inv h _
  | redo =>
    obtain rfl := Option.some.inj hstep
    exact display_inv h _
  | saveEdit =>
    obtain rfl := Option.some.inj hstep
    unfold State.saveEdit
    split
    · exact inv_send h
    · exact h
  | save =>
    obtain rfl := Option.some.inj hstep
    exact inv_send h
  | revert =>
    obtain rfl := Option.some.inj hstep
    exact inv_send h
  | takeNewerDraft =>
    obtain rfl := Option.some.inj hstep
    unfold State.takeNewerDraft
    split
    · exact h
    · exact inv_send h
  | handle =>
    cases hsent : s.sent with
    | nil =>
      simp only [step, hsent] at hstep
      exact absurd hstep (by simp)
    | cons call sent =>
      simp only [step, hsent] at hstep
      obtain rfl := Option.some.inj hstep
      have hcall := hcalm call (by simp [hsent])
      rw [hsent] at hcall
      exact serve_inv h hsent hcall
  | arrive i =>
    obtain ⟨reply, hreply, rfl⟩ := Option.map_eq_some_iff.mp hstep
    exact receive_inv h hreply (hcalm reply hreply)
  | elsewhere draft saved =>
    obtain rfl := Option.some.inj hstep
    exact h

end proofs

/-- **No local edit is taken for saved.** In a run in which every agreement with no other on its way is
    for the value that the tab last wrote or read: with nothing in flight, a working copy without an
    edit to write is that value. -/
theorem agreed_is_written (withoutChartSeriesIds : Λ → Λ) (draft : Option (WorkspaceData Λ M))
    (saved : WorkspaceData Λ M) (actions : List (Action Λ M)) (s : State Λ M)
    (hcalm : Along (step withoutChartSeriesIds) (Calm withoutChartSeriesIds) (State.loaded draft saved)
      actions)
    (hrun : run (step withoutChartSeriesIds) (State.loaded draft saved) actions = some s)
    (hsent : s.sent = []) (hreplies : s.replies = [])
    (hsaved : isUnsaved withoutChartSeriesIds s.agreed (some s.data) = false) :
    same withoutChartSeriesIds s.data s.seen = true := by
  have hinitial : Inv withoutChartSeriesIds (State.loaded draft saved) :=
    .inl ⟨_, rfl, same_refl _⟩
  rcases run_inv step_inv actions _ s hinitial hcalm hrun with hsettled | hpending
  · obtain ⟨agreed, hagreed, hseen⟩ := hsettled
    obtain ⟨value, hvalue, hdata⟩ := agreed_of_not_unsaved hsaved
    rw [Option.mem_unique hvalue hagreed] at hdata
    exact same_trans hdata hseen
  · unfold Pending at hpending
    rw [hsent, hreplies] at hpending
    exact absurd hpending (by simp)

/-- Two edits, the second made while the first is written, a commit, and a newer draft taken. -/
def writtenRun : List (Action Nat Unit) :=
  [.edit ⟨1, none⟩, .record, .saveEdit, .edit ⟨2, none⟩, .handle, .saveEdit, .arrive 0, .handle, .arrive 0,
    .save, .handle, .arrive 0, .arrive 0, .handle, .arrive 0, .elsewhere (some ⟨5, none⟩) ⟨2, none⟩,
    .takeNewerDraft, .handle, .arrive 0, .handle, .arrive 0]

theorem agreed_is_written_writtenRun :
    Along (step id) (Calm id) (State.loaded none ⟨0, some ()⟩) writtenRun ∧
      ∃ s, run (step id) (State.loaded none ⟨0, some ()⟩) writtenRun = some s ∧
        s.data = ⟨5, none⟩ ∧ same id s.data s.seen = true := by
  refine ⟨by decide, _, rfl, by decide, ?_⟩
  exact agreed_is_written id none ⟨0, some ()⟩ writtenRun _ (by decide) rfl rfl rfl
    (by decide)

/-- **An edit taken for saved.** It is made while a revert writes the saved workspace as the draft, and
    the revert then agrees on the working copy. -/
theorem edit_taken_for_saved :
    ¬ ∀ (draft : Option (WorkspaceData Nat Unit)) (saved : WorkspaceData Nat Unit)
        (actions : List (Action Nat Unit)) (s : State Nat Unit),
      run (step id) (State.loaded draft saved) actions = some s → s.sent = [] → s.replies = [] →
        isUnsaved id s.agreed (some s.data) = false → same id s.data s.seen = true := by
  intro h
  have hsame := h (some ⟨1, none⟩) ⟨0, none⟩
    [.revert, .handle, .arrive 0, .arrive 0, .edit ⟨2, none⟩, .handle, .arrive 0] _ rfl rfl rfl
    (by decide)
  exact absurd hsame (by decide)

/-! ## 4. The tab comes to rest -/

/-- How many turns a reply still takes: its arrival, and what it leads to. -/
def Reply.turns {δ : Type} : Reply δ → Nat
  | .assigned _ _ | .edit _ | .fetched _ .nothing => 1
  | .listedUpdate _ | .listed | .fetched _ .takeNewerDraft => 3
  | .updated _ | .fetched _ .revert => 4

def Call.turns {δ : Type} : Call δ → Nat
  | .assignEdit _ _ | .getEdit | .fetch .nothing => 2
  | .fetch .takeNewerDraft => 4
  | .update _ | .fetch .revert => 5

def State.turns (s : State Λ M) : Nat := (s.sent.map Call.turns).sum + (s.replies.map Reply.turns).sum

/-- The server goes on, or a reply arrives. -/
def Action.serves : Action Λ M → Bool
  | .handle | .arrive _ => true
  | _ => false

omit [DecidableEq Λ] [DecidableEq M] in
theorem turns_serve (s : State Λ M) (call : Call (WorkspaceData Λ M)) :
    (s.serve call).turns + 1 = s.turns + call.turns := by
  rcases call with _ | _ | (_ | _ | _) | _
  all_goals simp [State.serve, State.turns, Call.turns, Reply.turns, add_assoc]

variable {withoutChartSeriesIds : Λ → Λ}

theorem turns_receive (s : State Λ M) (reply : Reply (WorkspaceData Λ M)) :
    (s.receive withoutChartSeriesIds reply).turns + 1 = s.turns + reply.turns := by
  rcases reply with ⟨_, _ | _⟩ | _ | _ | ⟨_, _ | _ | _⟩ | _ | draft
  case edit =>
    have htake : (s.take withoutChartSeriesIds (draft.getD s.workspace)).turns = s.turns := by
      unfold State.take
      split <;> rfl
    exact congrArg (· + 1) htake
  all_goals
    simp only [State.receive, State.proceed, State.agree, State.reply, State.send, State.turns, Call.turns, Reply.turns,
      List.map_append, List.map_cons, List.map_nil, List.sum_append, List.sum_cons, List.sum_nil]
    try omega

/-- Every call handled and every reply that arrives takes one turn. -/
theorem turns_step {s s' : State Λ M} {a : Action Λ M} (ha : a.serves = true)
    (hstep : step withoutChartSeriesIds s a = some s') : s'.turns + 1 = s.turns := by
  cases a with
  | handle =>
    rw [step] at hstep
    cases hsent : s.sent with
    | nil => simp [hsent] at hstep
    | cons call sent =>
      rw [hsent] at hstep
      obtain rfl := Option.some.inj hstep
      have hserve := turns_serve { s with sent := sent } call
      simp only [State.turns, hsent, List.map_cons, List.sum_cons] at hserve ⊢
      omega
  | arrive i =>
    obtain ⟨reply, hreply, rfl⟩ := Option.map_eq_some_iff.mp hstep
    obtain ⟨hi, rfl⟩ := List.getElem?_eq_some_iff.mp hreply
    have herase := List.CommMonoid.add_sum_eraseIdx (l := s.replies.map Reply.turns) ((List.length_map _).symm ▸ hi)
    rw [List.getElem_map, List.eraseIdx_map] at herase
    have hreceive := @turns_receive Λ M _ _ withoutChartSeriesIds { s with replies := s.replies.eraseIdx i } s.replies[i]
    simp only [State.turns] at hreceive ⊢
    omega
  | _ => simp [Action.serves] at ha

/-- While a turn is left, the server or a reply can take it. -/
theorem exists_serves (s : State Λ M) (h : s.turns ≠ 0) :
    ∃ a s', a.serves = true ∧ step withoutChartSeriesIds s a = some s' := by
  cases hsent : s.sent with
  | cons call sent => exact ⟨.handle, _, rfl, by rw [step, hsent]⟩
  | nil =>
    cases hreplies : s.replies with
    | nil => exact absurd (by rw [State.turns, hsent, hreplies]; rfl) h
    | cons reply replies => exact ⟨.arrive 0, _, rfl, by rw [step, hreplies]; rfl⟩

omit [DecidableEq Λ] [DecidableEq M] in
theorem turns_zero {s : State Λ M} (h : s.turns = 0) : s.sent = [] ∧ s.replies = [] := by
  obtain ⟨hsent, hreplies⟩ := Nat.add_eq_zero_iff.mp h
  rw [List.sum_eq_zero_iff] at hsent hreplies
  rw [List.eq_nil_iff_forall_not_mem, List.eq_nil_iff_forall_not_mem]
  refine ⟨fun call hcall => ?_, fun reply hreply => ?_⟩
  · have hzero := hsent _ (List.mem_map_of_mem hcall)
    rcases call with _ | _ | (_ | _ | _) | _ <;> cases hzero
  · have hzero := hreplies _ (List.mem_map_of_mem hreply)
    rcases reply with _ | _ | _ | ⟨_, _ | _ | _⟩ | _ | _ <;> cases hzero

variable (withoutChartSeriesIds) in
/-- One save, handled and answered, keeps the working copy and leaves no edit to write. -/
def Saves (s : State Λ M) : Prop := ∃ actions t, actions.length ≤ 2 ∧
  run (step withoutChartSeriesIds) s (.saveEdit :: actions) = some t ∧ t.data = s.data ∧ t.sent = [] ∧ t.replies = [] ∧
  isUnsaved withoutChartSeriesIds t.agreed (some t.data) = false

theorem rest_saves {s : State Λ M} (hsent : s.sent = []) (hreplies : s.replies = []) :
    Saves withoutChartSeriesIds s := by
  cases hunsaved : isUnsaved withoutChartSeriesIds s.agreed (some s.data) with
  | false => exact ⟨[], s, by simp, by simp [run, step, State.saveEdit, hunsaved], rfl, hsent, hreplies, hunsaved⟩
  | true =>
    have hsame : same withoutChartSeriesIds s.data s.data = true := same_refl s.data
    refine ⟨[.handle, .arrive 0], { s with
      draft := some (withoutMeta s.data), seenDraft := some (withoutMeta s.data), agreed := some s.data }, by simp, ?_,
      rfl, hsent, hreplies, by simp [isUnsaved, hsame]⟩
    simp [run, step, State.saveEdit, hunsaved, State.send, hsent, State.serve, hreplies, State.receive, State.agree]

/-- **The tab comes to rest** in whatever order the server goes on and replies arrive: from any state they take
    `turns` steps in all and never wait before, and then nothing is in flight and one save, handled and answered,
    leaves no edit to write. -/
theorem comes_to_rest (s s' : State Λ M) (actions : List (Action Λ M)) (hserves : ∀ a ∈ actions, a.serves = true)
    (hrun : run (step withoutChartSeriesIds) s actions = some s') : actions.length ≤ s.turns ∧
    (actions.length < s.turns → ∃ a t, a.serves = true ∧ step withoutChartSeriesIds s' a = some t) ∧
    (actions.length = s.turns → s'.sent = [] ∧ s'.replies = [] ∧ Saves withoutChartSeriesIds s') := by
  have hturns : s'.turns + actions.length = s.turns :=
    run_measure (fun _ _ _ => turns_step) actions s s' hserves hrun
  refine ⟨by omega, fun hless => exists_serves s' (by omega), fun hall => ?_⟩
  obtain ⟨hsent, hreplies⟩ := turns_zero (s := s') (by omega)
  exact ⟨hsent, hreplies, rest_saves hsent hreplies⟩

/-- A newer draft and a revert are fetched, and the replies arrive out of order. -/
def twoFetches : State Nat Unit :=
  ((State.loaded (some ⟨1, none⟩) ⟨0, none⟩).takeNewerDraft id).send (.fetch .revert)

def outOfOrder : List (Action Nat Unit) :=
  [.handle, .handle, .arrive 1, .arrive 0, .handle, .arrive 0, .arrive 0, .handle, .arrive 0]

theorem comes_to_rest_outOfOrder : ∃ s', run (step id) twoFetches outOfOrder = some s' ∧
    s'.sent = [] ∧ s'.replies = [] ∧ Saves id s' :=
  ⟨_, rfl, (comes_to_rest twoFetches _ outOfOrder (by decide) rfl).2.2 rfl⟩

end Ceres.Console.Draft
