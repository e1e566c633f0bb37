/-
  File:      Ceres/Console/Feed.lean
  Subject:   THE RECORD FEED OF THE CONSOLE (`console/app/records/feed.ts`: `createRecordFeed`).

  A feed holds rows from the oldest to the newest, a page of older records that waits to be placed above
  them, and live arrivals that wait to be appended. Pages are asked for and come later, and the host
  calls the feed's functions in any order meanwhile.

  * `Feed` and its functions -- as the source has them, a request and its answer apart;
  * `Tidy` -- no record is held twice and the ids on record are those held, after every operation;
  * `Orderly` -- the rows are sorted as well, and nothing buffered is newer than a row;
  * `Calm` -- a batch that is not resorted comes in order behind the rows, and nothing older than a
    buffered record comes in, nor a page with something newer than a row;
  * **`feed_stays_orderly`** -- along calm operations;
  * `flush_out_of_order` -- two arrivals flushed in the wrong order.
-/
import Mathlib.Data.Finset.Basic
import Mathlib.Data.List.Sort
import Ceres.Library.Run

namespace Ceres.Console

open Ceres.Library

set_option linter.unusedSectionVars false

variable {κ τ : Type} [DecidableEq κ] [LinearOrder τ]

/-! ## 1. The feed -/

structure Record (κ τ : Type) where
  id : κ
  timestamp : τ
  deriving DecidableEq

/-- From the oldest to the newest. -/
def InOrder (records : List (Record κ τ)) : Prop :=
  records.Pairwise fun left right => left.timestamp ≤ right.timestamp

instance (records : List (Record κ τ)) : Decidable (InOrder records) := by
  unfold InOrder
  infer_instance

def ids (records : List (Record κ τ)) : List κ := records.map Record.id

structure Feed (κ τ : Type) where
  rows : List (Record κ τ)
  previousBuffer : List (Record κ τ)
  pendingAppends : List (Record κ τ)
  heldRecordIds : Finset κ
  isLoadingCurrent : Bool
  isLoadingPrevious : Bool
  isExhausted : Bool
  /-- Whether a first page has landed. -/
  lastLoadedCurrent : Bool

namespace Feed

def initial : Feed κ τ := ⟨[], [], [], ∅, true, false, false, false⟩

/-- The records not held, each counted as held on the way through. -/
def onlyNewRecords : Finset κ → List (Record κ τ) → List (Record κ τ)
  | _, [] => []
  | held, record :: records =>
    if record.id ∈ held then onlyNewRecords held records
    else record :: onlyNewRecords (insert record.id held) records

def rebuildHeldRecordIds (f : Feed κ τ) : Feed κ τ :=
  { f with heldRecordIds := (ids (f.rows ++ f.previousBuffer)).toFinset }

def reset (f : Feed κ τ) : Feed κ τ :=
  { f with
    rows := []
    previousBuffer := []
    pendingAppends := []
    heldRecordIds := ∅
    isExhausted := false
    isLoadingCurrent := true }

/-- Whether `append` resorts: the last arrival is older than the last row. -/
def resorts (rows fresh : List (Record κ τ)) : Bool :=
  match fresh.getLast?, rows.getLast? with
  | some arrival, some row => decide (arrival.timestamp < row.timestamp)
  | _, _ => false

def sort (records : List (Record κ τ)) : List (Record κ τ) :=
  records.insertionSort fun left right => left.timestamp ≤ right.timestamp

def append (f : Feed κ τ) (records : List (Record κ τ)) : Feed κ τ :=
  let fresh := onlyNewRecords f.heldRecordIds records
  { f with
    heldRecordIds := f.heldRecordIds ∪ (ids fresh).toFinset
    rows := if resorts f.rows fresh then sort (f.rows ++ fresh) else f.rows ++ fresh }

def cull (f : Feed κ τ) (keep : Nat) : Feed κ τ :=
  if 0 < f.rows.length - keep then
    rebuildHeldRecordIds { f with rows := f.rows.drop (f.rows.length - keep) }
  else f

def receive (f : Feed κ τ) (record : Record κ τ) (hold : Bool) : Feed κ τ :=
  if hold || f.isLoadingCurrent then { f with pendingAppends := f.pendingAppends ++ [record] }
  else f.append [record]

def flushPending (f : Feed κ τ) : Feed κ τ :=
  append { f with pendingAppends := [] } f.pendingAppends

def earliestHeldTimestamp (f : Feed κ τ) : Option τ :=
  match f.previousBuffer.head?, f.rows.head? with
  | some record, _ => some record.timestamp
  | none, record => record.map Record.timestamp

/-- `loadCurrent` when its page has come, newest first; the filter has not moved on. -/
def loaded (f : Feed κ τ) (page : List (Record κ τ)) : Feed κ τ :=
  let f := append { f with isExhausted := page.isEmpty, pendingAppends := [] }
    (page.reverse ++ f.pendingAppends)
  { f with lastLoadedCurrent := true, isLoadingCurrent := false }

/-- Whether `fetchPrevious` asks for a page; `settled` when the newest load is long enough ago. -/
def asksPrevious (f : Feed κ τ) (settled : Bool) : Bool :=
  !f.isExhausted && !f.isLoadingPrevious && f.previousBuffer.isEmpty && f.lastLoadedCurrent && settled

/-- `fetchPrevious` when its page has come. -/
def fetched (f : Feed κ τ) (page : List (Record κ τ)) : Feed κ τ :=
  let fresh := onlyNewRecords f.heldRecordIds page.reverse
  { f with
    isExhausted := page.isEmpty
    heldRecordIds := f.heldRecordIds ∪ (ids fresh).toFinset
    previousBuffer := fresh ++ f.previousBuffer
    isLoadingPrevious := false }

def placePrevious (f : Feed κ τ) : Feed κ τ :=
  { f with rows := f.previousBuffer ++ f.rows, previousBuffer := [] }

end Feed

inductive FeedAction (κ τ : Type) where
  | loadCurrent
  | loaded (page : List (Record κ τ))
  /-- The load fails, or the filter moved on while it was in flight. -/
  | loadDropped
  | fetchPrevious (settled : Bool)
  | fetched (page : List (Record κ τ))
  | fetchDropped
  | placePrevious
  | append (records : List (Record κ τ))
  | receive (record : Record κ τ) (hold : Bool)
  | flushPending
  | cull (keep : Nat)
  | reset

/-- A feed, and how many loads of the newest page are in flight. -/
structure FeedState (κ τ : Type) where
  feed : Feed κ τ
  loads : Nat

def FeedState.initial : FeedState κ τ := ⟨Feed.initial, 0⟩

/-- Pages come in descending order. -/
def FeedState.step (s : FeedState κ τ) : FeedAction κ τ → Option (FeedState κ τ)
  | .loadCurrent => some ⟨s.feed.reset, s.loads + 1⟩
  | .loaded page =>
    if 0 < s.loads ∧ InOrder page.reverse then some ⟨s.feed.loaded page, s.loads - 1⟩ else none
  | .loadDropped =>
    if 0 < s.loads then some ⟨{ s.feed with isLoadingCurrent := false }, s.loads - 1⟩ else none
  | .fetchPrevious settled =>
    some (if s.feed.asksPrevious settled then ⟨{ s.feed with isLoadingPrevious := true }, s.loads⟩
      else s)
  | .fetched page =>
    if s.feed.isLoadingPrevious = true ∧ InOrder page.reverse then some ⟨s.feed.fetched page, s.loads⟩
    else none
  | .fetchDropped =>
    if s.feed.isLoadingPrevious = true then
      some ⟨{ s.feed with isLoadingPrevious := false }, s.loads⟩
    else none
  | .placePrevious => some ⟨s.feed.placePrevious, s.loads⟩
  | .append records => some ⟨s.feed.append records, s.loads⟩
  | .receive record hold => some ⟨s.feed.receive record hold, s.loads⟩
  | .flushPending => some ⟨s.feed.flushPending, s.loads⟩
  | .cull keep => some ⟨s.feed.cull keep, s.loads⟩
  | .reset => some ⟨s.feed.reset, s.loads⟩

/-! ## 2. What is held -/

/-- No record is held twice, and the ids on record are those of the records held. -/
structure Feed.Tidy (f : Feed κ τ) : Prop where
  nodup : (ids (f.rows ++ f.previousBuffer)).Nodup
  held : f.heldRecordIds = (ids (f.rows ++ f.previousBuffer)).toFinset

theorem onlyNewRecords_sublist (held : Finset κ) (records : List (Record κ τ)) :
    (Feed.onlyNewRecords held records).Sublist records := by
  induction records generalizing held with
  | nil => exact List.Sublist.slnil
  | cons record records ih =>
    unfold Feed.onlyNewRecords
    split
    · exact (ih held).cons record
    · exact (ih _).cons_cons record

theorem onlyNewRecords_spec (held : Finset κ) (records : List (Record κ τ)) :
    (ids (Feed.onlyNewRecords held records)).Nodup ∧
      ∀ id ∈ ids (Feed.onlyNewRecords held records), id ∉ held := by
  induction records generalizing held with
  | nil => exact ⟨List.nodup_nil, by simp [ids, Feed.onlyNewRecords]⟩
  | cons record records ih =>
    unfold Feed.onlyNewRecords
    split
    · exact ih held
    · rename_i hnew
      obtain ⟨hnodup, hfresh⟩ := ih (insert record.id held)
      constructor
      · refine List.nodup_cons.mpr ⟨fun hmem => ?_, hnodup⟩
        exact hfresh record.id hmem (Finset.mem_insert_self _ _)
      · intro id hid
        rcases List.mem_cons.mp hid with rfl | hid
        · exact hnew
        · exact fun hheld => hfresh id hid (Finset.mem_insert_of_mem hheld)

theorem mem_ids_onlyNewRecords {held : Finset κ} {records : List (Record κ τ)} {record : Record κ τ}
    (h : record ∈ records) : record.id ∈ held ∨ record.id ∈ ids (Feed.onlyNewRecords held records) := by
  induction records generalizing held with
  | nil => exact absurd h List.not_mem_nil
  | cons first records ih =>
    unfold Feed.onlyNewRecords
    by_cases hfirst : first.id ∈ held
    · rw [if_pos hfirst]
      rcases List.mem_cons.mp h with rfl | h
      · exact .inl hfirst
      · exact ih h
    · rw [if_neg hfirst]
      rcases List.mem_cons.mp h with rfl | h
      · exact .inr List.mem_cons_self
      · rcases @ih (insert first.id held) h with hheld | hnew
        · rcases Finset.mem_insert.mp hheld with heq | hheld
          · rw [heq]
            exact .inr List.mem_cons_self
          · exact .inl hheld
        · exact .inr (List.mem_cons_of_mem _ hnew)

theorem append_rows_perm (f : Feed κ τ) (records : List (Record κ τ)) :
    (f.append records).rows.Perm (f.rows ++ Feed.onlyNewRecords f.heldRecordIds records) := by
  unfold Feed.append
  simp only
  split
  · exact List.perm_insertionSort _ _
  · exact List.Perm.refl _

theorem ids_append (l m : List (Record κ τ)) : ids (l ++ m) = ids l ++ ids m := List.map_append

variable {f : Feed κ τ}

theorem Tidy.join (h : f.Tidy) (records all : List (Record κ τ))
    (hall : all.Perm ((f.rows ++ f.previousBuffer) ++ Feed.onlyNewRecords f.heldRecordIds records)) :
    (ids all).Nodup ∧ f.heldRecordIds ∪ (ids (Feed.onlyNewRecords f.heldRecordIds records)).toFinset =
        (ids all).toFinset := by
  obtain ⟨hnodup, hfresh⟩ := onlyNewRecords_spec f.heldRecordIds records
  have hperm : (ids all).Perm (ids (f.rows ++ f.previousBuffer) ++
      ids (Feed.onlyNewRecords f.heldRecordIds records)) := by
    rw [← ids_append]
    exact hall.map _
  constructor
  · refine hperm.nodup_iff.mpr (List.Nodup.append h.nodup hnodup fun id hold hnew => ?_)
    refine hfresh id hnew ?_
    rw [h.held]
    exact List.mem_toFinset.mpr hold
  · rw [List.toFinset_eq_of_perm _ _ hperm, List.toFinset_append, ← h.held]

theorem append_tidy (h : f.Tidy) (records : List (Record κ τ)) : (f.append records).Tidy := by
  have hall : ((f.append records).rows ++ f.previousBuffer).Perm
      ((f.rows ++ f.previousBuffer) ++ Feed.onlyNewRecords f.heldRecordIds records) := by
    refine ((append_rows_perm f records).append_right _).trans ?_
    rw [List.append_assoc, List.append_assoc]
    exact List.perm_append_comm.append_left _
  obtain ⟨hnodup, hheld⟩ := Tidy.join h records _ hall
  exact ⟨hnodup, hheld⟩

theorem fetched_tidy (h : f.Tidy) (page : List (Record κ τ)) : (f.fetched page).Tidy := by
  have hall : (f.rows ++ (Feed.onlyNewRecords f.heldRecordIds page.reverse ++ f.previousBuffer)).Perm
      ((f.rows ++ f.previousBuffer) ++ Feed.onlyNewRecords f.heldRecordIds page.reverse) := by
    rw [List.append_assoc]
    exact List.perm_append_comm.append_left _
  obtain ⟨hnodup, hheld⟩ := Tidy.join h page.reverse _ hall
  exact ⟨hnodup, hheld⟩

theorem cull_tidy (h : f.Tidy) (keep : Nat) : (f.cull keep).Tidy := by
  unfold Feed.cull
  split
  · refine ⟨?_, rfl⟩
    refine List.Nodup.sublist ?_ h.nodup
    exact ((List.drop_sublist _ _).append_right _).map _
  · exact h

theorem reset_tidy (f : Feed κ τ) : f.reset.Tidy := ⟨List.nodup_nil, rfl⟩

theorem placePrevious_tidy (h : f.Tidy) : f.placePrevious.Tidy := by
  have hperm : (ids ((f.previousBuffer ++ f.rows) ++ [])).Perm (ids (f.rows ++ f.previousBuffer)) := by
    rw [List.append_nil]
    exact List.perm_append_comm.map _
  exact ⟨hperm.nodup_iff.mpr h.nodup, h.held.trans (List.toFinset_eq_of_perm _ _ hperm).symm⟩

/-! ## 3. The order -/

/-- What holds of a feed after every operation. -/
structure Feed.Orderly (f : Feed κ τ) : Prop where
  sorted : InOrder f.rows
  nodup : (ids (f.rows ++ f.previousBuffer)).Nodup
  held : f.heldRecordIds = (ids (f.rows ++ f.previousBuffer)).toFinset
  older : ∀ record ∈ f.previousBuffer, ∀ row ∈ f.rows, record.timestamp ≤ row.timestamp

/-- A batch comes in order behind the rows, if `append` does not resort, and holds nothing older than a
    buffered record. -/
def Feed.Fits (f : Feed κ τ) (records : List (Record κ τ)) : Prop :=
  (Feed.resorts f.rows (Feed.onlyNewRecords f.heldRecordIds records) = true ∨
    InOrder (f.rows ++ Feed.onlyNewRecords f.heldRecordIds records)) ∧
  ∀ record ∈ f.previousBuffer, ∀ arrival ∈ Feed.onlyNewRecords f.heldRecordIds records,
    record.timestamp ≤ arrival.timestamp

instance (f : Feed κ τ) (records : List (Record κ τ)) : Decidable (f.Fits records) := by
  unfold Feed.Fits
  infer_instance

/-- The operations that keep the order. -/
def FeedState.Calm (s : FeedState κ τ) : FeedAction κ τ → Prop
  | .loaded page => s.feed.Fits (page.reverse ++ s.feed.pendingAppends)
  | .fetched page => ∀ record ∈ Feed.onlyNewRecords s.feed.heldRecordIds page.reverse,
      ∀ row ∈ s.feed.rows, record.timestamp ≤ row.timestamp
  | .append records => s.feed.Fits records
  | .receive record hold => (hold || s.feed.isLoadingCurrent) = true ∨ s.feed.Fits [record]
  | .flushPending => s.feed.Fits s.feed.pendingAppends
  | _ => True

instance (s : FeedState κ τ) (a : FeedAction κ τ) : Decidable (s.Calm a) := by
  cases a <;> unfold FeedState.Calm <;> infer_instance

structure Feed.Inv (f : Feed κ τ) : Prop where
  tidy : f.Tidy
  sorted : InOrder f.rows
  buffered : InOrder f.previousBuffer
  older : ∀ record ∈ f.previousBuffer, ∀ row ∈ f.rows, record.timestamp ≤ row.timestamp
  /-- A page is asked for only while none waits. -/
  asked : f.isLoadingPrevious = true → f.previousBuffer = []

theorem inv_initial : (Feed.initial : Feed κ τ).Inv := by
  refine ⟨⟨List.nodup_nil, rfl⟩, List.Pairwise.nil, List.Pairwise.nil, ?_, fun _ => rfl⟩
  exact fun record hrecord => absurd hrecord List.not_mem_nil

theorem sort_inOrder (records : List (Record κ τ)) : InOrder (Feed.sort records) := by
  have : Std.Total fun left right : Record κ τ => left.timestamp ≤ right.timestamp :=
    ⟨fun left right => le_total _ _⟩
  have : IsTrans (Record κ τ) fun left right => left.timestamp ≤ right.timestamp :=
    ⟨fun _ _ _ => le_trans⟩
  exact List.pairwise_insertionSort _ _

/-- **`append`** of a batch that fits. -/
theorem append_inv {records : List (Record κ τ)} (h : f.Inv) (hfits : f.Fits records) :
    (f.append records).Inv := by
  obtain ⟨horder, holder⟩ := hfits
  refine ⟨append_tidy h.tidy records, ?_, h.buffered, ?_, h.asked⟩
  · unfold Feed.append
    simp only
    split
    · exact sort_inOrder _
    · rename_i hsort
      exact horder.resolve_left hsort
  · intro record hrecord row hrow
    rcases List.mem_append.mp ((append_rows_perm f records).mem_iff.mp hrow) with hold | hnew
    · exact h.older record hrecord row hold
    · exact holder record hrecord row hnew

theorem loaded_inv {page : List (Record κ τ)} (h : f.Inv)
    (hfits : f.Fits (page.reverse ++ f.pendingAppends)) : (f.loaded page).Inv := by
  have hbefore : Feed.Inv { f with isExhausted := page.isEmpty, pendingAppends := [] } :=
    ⟨⟨h.tidy.nodup, h.tidy.held⟩, h.sorted, h.buffered, h.older, h.asked⟩
  have happend := append_inv hbefore hfits
  exact ⟨⟨happend.tidy.nodup, happend.tidy.held⟩, happend.sorted, happend.buffered, happend.older,
    happend.asked⟩

/-- **A page of older records** that has nothing newer than a row. -/
theorem fetched_inv {page : List (Record κ τ)} (h : f.Inv) (hloading : f.isLoadingPrevious = true)
    (hpage : InOrder page.reverse)
    (hcalm : ∀ record ∈ Feed.onlyNewRecords f.heldRecordIds page.reverse, ∀ row ∈ f.rows,
      record.timestamp ≤ row.timestamp) : (f.fetched page).Inv := by
  have hbuffer : (f.fetched page).previousBuffer = Feed.onlyNewRecords f.heldRecordIds page.reverse := by
    simp [Feed.fetched, h.asked hloading]
  refine ⟨fetched_tidy h.tidy page, h.sorted, ?_, ?_, ?_⟩
  · rw [hbuffer]
    exact List.Pairwise.sublist (onlyNewRecords_sublist _ _) hpage
  · rw [hbuffer]
    exact hcalm
  · intro hnone
    exact absurd hnone (by simp [Feed.fetched])

theorem placePrevious_inv (h : f.Inv) : f.placePrevious.Inv := by
  refine ⟨placePrevious_tidy h.tidy, ?_, List.Pairwise.nil, ?_, fun _ => rfl⟩
  · exact List.pairwise_append.mpr ⟨h.buffered, h.sorted, h.older⟩
  · exact fun record hrecord => absurd hrecord List.not_mem_nil

theorem cull_inv (h : f.Inv) (keep : Nat) : (f.cull keep).Inv := by
  refine ⟨cull_tidy h.tidy keep, ?_, ?_, ?_, ?_⟩
  all_goals unfold Feed.cull; split
  · exact List.Pairwise.sublist (List.drop_sublist _ _) h.sorted
  · exact h.sorted
  · exact h.buffered
  · exact h.buffered
  · exact fun record hrecord row hrow => h.older record hrecord row (List.mem_of_mem_drop hrow)
  · exact h.older
  · exact h.asked
  · exact h.asked

theorem reset_inv (f : Feed κ τ) : f.reset.Inv := by
  refine ⟨reset_tidy f, List.Pairwise.nil, List.Pairwise.nil, ?_, fun _ => rfl⟩
  exact fun record hrecord => absurd hrecord List.not_mem_nil

theorem feedStep_inv (s : FeedState κ τ) (a : FeedAction κ τ) (s' : FeedState κ τ) (h : s.feed.Inv)
    (hcalm : s.Calm a) (hstep : s.step a = some s') : s'.feed.Inv := by
  cases a with
  | loadCurrent =>
    obtain rfl := Option.some.inj hstep
    exact reset_inv _
  | loaded page =>
    obtain ⟨_, heq⟩ := Option.ite_none_right_eq_some.mp hstep
    obtain rfl := Option.some.inj heq
    exact loaded_inv h hcalm
  | loadDropped =>
    obtain ⟨_, heq⟩ := Option.ite_none_right_eq_some.mp hstep
    obtain rfl := Option.some.inj heq
    exact ⟨⟨h.tidy.nodup, h.tidy.held⟩, h.sorted, h.buffered, h.older, h.asked⟩
  | fetchPrevious settled =>
    obtain rfl := Option.some.inj hstep
    split
    · rename_i hasks
      refine ⟨⟨h.tidy.nodup, h.tidy.held⟩, h.sorted, h.buffered, h.older, fun _ => ?_⟩
      simp only [Feed.asksPrevious, Bool.and_eq_true] at hasks
      exact List.isEmpty_iff.mp hasks.1.1.2
    · exact h
  | fetched page =>
    obtain ⟨⟨hloading, hpage⟩, heq⟩ := Option.ite_none_right_eq_some.mp hstep
    obtain rfl := Option.some.inj heq
    exact fetched_inv h hloading hpage hcalm
  | fetchDropped =>
    obtain ⟨_, heq⟩ := Option.ite_none_right_eq_some.mp hstep
    obtain rfl := Option.some.inj heq
    exact ⟨⟨h.tidy.nodup, h.tidy.held⟩, h.sorted, h.buffered, h.older, by simp⟩
  | placePrevious =>
    obtain rfl := Option.some.inj hstep
    exact placePrevious_inv h
  | append records =>
    obtain rfl := Option.some.inj hstep
    exact append_inv h hcalm
  | receive record hold =>
    obtain rfl := Option.some.inj hstep
    unfold Feed.receive
    by_cases hheld : (hold || s.feed.isLoadingCurrent) = true
    · simp only [if_pos hheld]
      exact ⟨⟨h.tidy.nodup, h.tidy.held⟩, h.sorted, h.buffered, h.older, h.asked⟩
    · simp only [if_neg hheld]
      exact append_inv h (hcalm.resolve_left hheld)
  | flushPending =>
    obtain rfl := Option.some.inj hstep
    have hbefore : Feed.Inv { s.feed with pendingAppends := [] } :=
      ⟨⟨h.tidy.nodup, h.tidy.held⟩, h.sorted, h.buffered, h.older, h.asked⟩
    exact append_inv hbefore hcalm
  | cull keep =>
    obtain rfl := Option.some.inj hstep
    exact cull_inv h keep
  | reset =>
    obtain rfl := Option.some.inj hstep
    exact reset_inv _

/-- **The feed stays sorted and free of duplicates.** In a run in which each batch that `append` does not
    resort comes in order behind the rows, none brings a record older than a buffered one, and no page
    brings one newer than a row. -/
theorem feed_stays_orderly (actions : List (FeedAction κ τ)) (s : FeedState κ τ)
    (hcalm : Along FeedState.step FeedState.Calm FeedState.initial actions)
    (hrun : run FeedState.step FeedState.initial actions = some s) : s.feed.Orderly := by
  have h := @run_inv _ _ _ _ (fun s => s.feed.Inv) feedStep_inv actions _ s inv_initial hcalm hrun
  exact ⟨h.sorted, h.tidy.nodup, h.tidy.held, h.older⟩

/-- A page is loaded while a record arrives, an arrival comes late and is sorted in, and an older page is
    fetched and placed. -/
def orderlyRun : List (FeedAction String Nat) :=
  [.loadCurrent, .receive ⟨"d", 4⟩ false, .loaded [⟨"d", 4⟩, ⟨"b", 2⟩], .receive ⟨"c", 3⟩ false,
    .fetchPrevious true, .fetched [⟨"a", 1⟩], .placePrevious, .cull 3]

theorem feed_stays_orderly_orderlyRun :
    Along FeedState.step FeedState.Calm FeedState.initial orderlyRun ∧
      ∃ s, run FeedState.step FeedState.initial orderlyRun = some s ∧
        ids s.feed.rows = ["b", "c", "d"] ∧ s.feed.Orderly := by
  refine ⟨by decide, _, rfl, by decide, ?_⟩
  exact feed_stays_orderly orderlyRun _ (by decide) rfl

/-- **Two arrivals flushed in the wrong order.** `append` compares the last of them with the last row, and
    there is no row. -/
theorem flush_out_of_order :
    ¬ ∀ (actions : List (FeedAction String Nat)) (s : FeedState String Nat),
      run FeedState.step FeedState.initial actions = some s → s.feed.Orderly := by
  intro h
  have hsorted := (h [.receive ⟨"b", 2⟩ true, .receive ⟨"a", 1⟩ true, .flushPending] _ rfl).sorted
  exact absurd hsorted (by decide)

end Ceres.Console
