/-
  File:      Ceres/Console/FeedStore.lean
  Subject:   THE RECORD FEED OVER A STORE (`console/app/records/feed.ts`; `filter.rs`:
             `timestamp_matches`), and that it skips no record.

  The store holds the records the filter matches and grows by live ones. A page is the newest records
  with a timestamp before the bound that is asked for, which is exclusive; records of one timestamp may
  come in any order, so a page that ends among them leaves some out.

  * `State`, `step` -- the feed, the store and the requests in flight, asked, answered and received
    apart;
  * `Beyond` -- a record is older than everything held and everything on its way;
  * `Calm` -- no page ends among records of one timestamp, what is dropped is beyond what stays, and
    what comes in live is newer than what is not held;
  * **`feed_skips_none`** -- along calm steps nothing between two held records is missing, and nothing
    at all once the feed is exhausted;
  * `tie_skipped` -- two records of one timestamp at the end of a page.
-/
import Ceres.Console.Feed

namespace Ceres.Console.FeedStore

open Ceres.Library

set_option linter.unusedSectionVars false

variable {κ τ : Type} [DecidableEq κ] [LinearOrder τ]

/-! ## 1. The system -/

/-- A request for the newest page, and its page once the engine has answered. -/
structure Load (κ τ : Type) where
  limit : Nat
  page : Option (List (Record κ τ))

/-- A request for the page before a bound. -/
structure Previous (κ τ : Type) extends Load κ τ where
  before : Option τ

structure State (κ τ : Type) where
  feed : Feed κ τ
  store : List (Record κ τ)
  loads : List (Load κ τ)
  previous : Option (Previous κ τ)
  /-- Whether rows were culled since everything was last dropped. -/
  culled : Bool

/-- The records that a filter matches are there before the feed is. -/
def State.initial (store : List (Record κ τ)) : State κ τ := ⟨Feed.initial, store, [], none, false⟩

/-- The records a page is taken from. -/
def State.matching (s : State κ τ) (before : Option τ) : List (Record κ τ) :=
  s.store.filter fun record => before.all fun bound => decide (record.timestamp < bound)

inductive Action (κ τ : Type) where
  | loadCurrent (limit : Nat)
  /-- The engine answers, with the records it can choose from newest first. -/
  | answerLoad (load : Nat) (arranged : List (Record κ τ))
  | loaded (load : Nat)
  | loadDropped (load : Nat)
  | fetchPrevious (settled : Bool) (limit : Nat)
  | answerPrevious (arranged : List (Record κ τ))
  | fetched
  | fetchDropped
  | placePrevious
  /-- A live record, stored and then received; or one that a reconnected stream replays. -/
  | receive (record : Record κ τ) (hold : Bool)
  | flushPending
  | cull (keep : Nat)
  | reset

/-- An arrangement of the records a page is taken from. -/
def State.Arranged (s : State κ τ) (before : Option τ) (arranged : List (Record κ τ)) : Prop :=
  arranged.Perm (s.matching before) ∧ InOrder arranged.reverse

instance (s : State κ τ) (before : Option τ) (arranged : List (Record κ τ)) :
    Decidable (s.Arranged before arranged) := by
  unfold State.Arranged
  infer_instance

def State.reset (s : State κ τ) : State κ τ := { s with feed := s.feed.reset, culled := false }

def State.cull (s : State κ τ) (keep : Nat) : State κ τ :=
  { s with feed := s.feed.cull keep, culled := s.culled || decide (0 < s.feed.rows.length - keep) }

def State.receive (s : State κ τ) (record : Record κ τ) (hold : Bool) : State κ τ :=
  { s with
    feed := s.feed.receive record hold
    store := if record ∈ s.store then s.store else record :: s.store }

def State.fetchPrevious (s : State κ τ) (settled : Bool) (limit : Nat) : State κ τ :=
  if s.feed.asksPrevious settled then
    { s with
      feed := { s.feed with isLoadingPrevious := true }
      previous := some ⟨⟨limit, none⟩, s.feed.earliestHeldTimestamp⟩ }
  else s

def State.answerLoad (s : State κ τ) (i : Nat) (load : Load κ τ) (arranged : List (Record κ τ)) :
    State κ τ :=
  { s with loads := s.loads.set i { load with page := some (arranged.take load.limit) } }

def State.answerPrevious (s : State κ τ) (previous : Previous κ τ) (arranged : List (Record κ τ)) :
    State κ τ :=
  { s with previous := some { previous with page := some (arranged.take previous.limit) } }

def step (s : State κ τ) : Action κ τ → Option (State κ τ)
  | .loadCurrent limit => some { s.reset with loads := s.loads ++ [⟨limit, none⟩] }
  | .answerLoad i arranged =>
    s.loads[i]?.bind fun load =>
      if load.page = none ∧ s.Arranged none arranged then some (s.answerLoad i load arranged) else none
  | .loaded i =>
    (s.loads[i]?.bind Load.page).map fun page =>
      { s with feed := s.feed.loaded page, loads := s.loads.eraseIdx i }
  | .loadDropped i =>
    s.loads[i]?.map fun _ =>
      { s with
        feed := { s.feed with isLoadingCurrent := false }
        loads := s.loads.eraseIdx i }
  | .fetchPrevious settled limit => some (s.fetchPrevious settled limit)
  | .answerPrevious arranged =>
    s.previous.bind fun previous =>
      if previous.page = none ∧ s.Arranged previous.before arranged then
        some (s.answerPrevious previous arranged)
      else none
  | .fetched =>
    (s.previous.bind fun previous => previous.page).map fun page =>
      { s with feed := s.feed.fetched page, previous := none }
  | .fetchDropped =>
    s.previous.map fun _ =>
      { s with
        feed := { s.feed with isLoadingPrevious := false }
        previous := none }
  | .placePrevious => some { s with feed := s.feed.placePrevious }
  | .receive record hold =>
    if record ∈ s.store ∨ record.id ∉ ids s.store then some (s.receive record hold) else none
  | .flushPending => some { s with feed := s.feed.flushPending }
  | .cull keep => some (s.cull keep)
  | .reset => some s.reset

/-! ## 2. What is missing is older -/

def State.held (s : State κ τ) : List (Record κ τ) := s.feed.rows ++ s.feed.previousBuffer

def State.known (s : State κ τ) : List (Record κ τ) := s.held ++ s.feed.pendingAppends

/-- The pages that were answered and not received. -/
def State.pages (s : State κ τ) : List (List (Record κ τ)) :=
  s.loads.filterMap Load.page ++ (s.previous.bind fun previous => previous.page).toList

/-- The bound of an older page that was not answered yet. -/
def State.bound (s : State κ τ) : Option τ :=
  s.previous.bind fun previous => if previous.page = none then previous.before else none

/-- The record is on the page, or older than it. -/
def OlderThan (page : List (Record κ τ)) (record : Record κ τ) : Prop :=
  record ∈ page ∨ page ≠ [] ∧ ∀ other ∈ page, record.timestamp < other.timestamp

instance (page : List (Record κ τ)) (record : Record κ τ) : Decidable (OlderThan page record) := by
  unfold OlderThan
  infer_instance

/-- The record is older than everything held and everything on its way. -/
structure Beyond (s : State κ τ) (record : Record κ τ) : Prop where
  held : ∀ other ∈ s.held, record.timestamp < other.timestamp
  pages : ∀ page ∈ s.pages, OlderThan page record
  bound : ∀ bound ∈ s.bound, record.timestamp < bound

instance (s : State κ τ) (record : Record κ τ) : Decidable (Beyond s record) :=
  decidable_of_iff ((∀ other ∈ s.held, record.timestamp < other.timestamp) ∧
      (∀ page ∈ s.pages, OlderThan page record) ∧ ∀ bound ∈ s.bound, record.timestamp < bound)
    ⟨fun h => ⟨h.1, h.2.1, h.2.2⟩, fun h => ⟨h.held, h.pages, h.bound⟩⟩

/-- A page of positive size that does not end among records of one timestamp. -/
def WholePage (limit : Nat) (arranged : List (Record κ τ)) : Prop :=
  0 < limit ∧ ∀ record ∈ arranged.drop limit, ∀ other ∈ arranged.take limit,
    record.timestamp ≠ other.timestamp

instance (limit : Nat) (arranged : List (Record κ τ)) : Decidable (WholePage limit arranged) := by
  unfold WholePage
  infer_instance

/-- The arrivals are newer than every stored record that is neither known nor on the page. -/
def Newer (s : State κ τ) (page arrivals : List (Record κ τ)) : Prop :=
  ∀ record ∈ s.store, record ∉ s.known → record ∉ page → ∀ arrival ∈ arrivals,
    record.timestamp < arrival.timestamp

instance (s : State κ τ) (page arrivals : List (Record κ τ)) : Decidable (Newer s page arrivals) := by
  unfold Newer
  infer_instance

/-- The steps that skip nothing. -/
def Calm (s : State κ τ) : Action κ τ → Prop
  | .loadCurrent _ => ∀ record ∈ s.known, Beyond s.reset record
  | .reset => ∀ record ∈ s.known, Beyond s.reset record
  | .cull keep => ∀ record ∈ s.known, record ∉ (s.cull keep).known → Beyond (s.cull keep) record
  | .answerLoad i arranged => ∀ load ∈ s.loads[i]?, WholePage load.limit arranged
  | .answerPrevious arranged => ∀ previous ∈ s.previous, WholePage previous.limit arranged
  | .loaded i => ∀ load ∈ s.loads[i]?, ∀ page ∈ load.page, Newer s page s.feed.pendingAppends
  | .receive record hold =>
      (hold || s.feed.isLoadingCurrent) = true ∨ Newer s [record] [record]
  | .flushPending => Newer s [] s.feed.pendingAppends
  | _ => True

instance (s : State κ τ) (a : Action κ τ) : Decidable (Calm s a) := by
  cases a <;> unfold Calm <;> infer_instance

structure Inv (s : State κ τ) : Prop where
  distinct : (ids s.store).Nodup
  stored : ∀ record ∈ s.known, record ∈ s.store
  paged : ∀ page ∈ s.pages, ∀ record ∈ page, record ∈ s.store
  tidy : s.feed.Tidy
  missing : ∀ record ∈ s.store, record ∉ s.known → Beyond s record
  exhausted : s.feed.isExhausted = true → s.culled = false → ∀ record ∈ s.store, record ∈ s.known

theorem inv_initial {store : List (Record κ τ)} (h : (ids store).Nodup) : Inv (State.initial store) := by
  refine ⟨h, ?_, ?_, ⟨List.nodup_nil, rfl⟩, ?_, ?_⟩
  · exact fun record hrecord => absurd hrecord List.not_mem_nil
  · exact fun page hpage => absurd hpage List.not_mem_nil
  · intro record _ _
    refine ⟨?_, ?_, ?_⟩
    · exact fun other hother => absurd hother List.not_mem_nil
    · exact fun page hpage => absurd hpage List.not_mem_nil
    · intro bound hbound
      exact absurd hbound (by simp [State.bound, State.initial])
  · intro hexhausted
    exact absurd hexhausted (by simp [State.initial, Feed.initial])

variable {record : Record κ τ}

theorem mem_held_or_new {f : Feed κ τ} {store records : List (Record κ τ)} (hdistinct : (ids store).Nodup)
    (htidy : f.Tidy) (hheld : ∀ other ∈ f.rows ++ f.previousBuffer, other ∈ store)
    (hrecords : ∀ other ∈ records, other ∈ store) (h : record ∈ records) :
    record ∈ f.rows ++ f.previousBuffer ∨ record ∈ Feed.onlyNewRecords f.heldRecordIds records := by
  -- two stored records with one id are one record
  have hsame : ∀ l : List (Record κ τ), (∀ other ∈ l, other ∈ store) → record.id ∈ ids l → record ∈ l := by
    intro l hl hid
    obtain ⟨other, hother, heq⟩ := List.mem_map.mp hid
    rw [← List.inj_on_of_nodup_map hdistinct (hl other hother) (hrecords record h) heq]
    exact hother
  rcases @mem_ids_onlyNewRecords _ _ _ _ f.heldRecordIds records record h with hid | hid
  · rw [htidy.held, List.mem_toFinset] at hid
    exact .inl (hsame _ hheld hid)
  · refine .inr (hsame _ (fun other hother => ?_) hid)
    exact hrecords other ((onlyNewRecords_sublist _ _).subset hother)

/-- **What `append` holds** of stored records. -/
theorem mem_append {f : Feed κ τ} {store records : List (Record κ τ)} (hdistinct : (ids store).Nodup)
    (htidy : f.Tidy) (hheld : ∀ other ∈ f.rows ++ f.previousBuffer, other ∈ store)
    (hrecords : ∀ other ∈ records, other ∈ store) (record : Record κ τ) :
    record ∈ (f.append records).rows ++ f.previousBuffer ↔
      record ∈ f.rows ++ f.previousBuffer ∨ record ∈ records := by
  rw [List.mem_append, (append_rows_perm f records).mem_iff, List.mem_append, List.mem_append]
  constructor
  · intro h
    rcases h with (h | h) | h
    · exact .inl (.inl h)
    · exact .inr ((onlyNewRecords_sublist _ _).subset h)
    · exact .inl (.inr h)
  · intro h
    rcases h with (h | h) | h
    · exact .inl (.inl h)
    · exact .inr h
    · rcases mem_held_or_new hdistinct htidy hheld hrecords h with h | h
      · rcases List.mem_append.mp h with h | h
        · exact .inl (.inl h)
        · exact .inr h
      · exact .inl (.inr h)

theorem mem_fetched {f : Feed κ τ} {store page : List (Record κ τ)} (hdistinct : (ids store).Nodup)
    (htidy : f.Tidy) (hheld : ∀ other ∈ f.rows ++ f.previousBuffer, other ∈ store)
    (hpage : ∀ other ∈ page, other ∈ store) (record : Record κ τ) :
    record ∈ (f.fetched page).rows ++ (f.fetched page).previousBuffer ↔
      record ∈ f.rows ++ f.previousBuffer ∨ record ∈ page := by
  have hreverse : ∀ other ∈ page.reverse, other ∈ store :=
    fun other hother => hpage other (List.mem_reverse.mp hother)
  simp only [Feed.fetched, List.mem_append]
  constructor
  · intro h
    rcases h with h | h | h
    · exact .inl (.inl h)
    · exact .inr (List.mem_reverse.mp ((onlyNewRecords_sublist _ _).subset h))
    · exact .inl (.inr h)
  · intro h
    rcases h with (h | h) | h
    · exact .inl h
    · exact .inr (.inr h)
    · rcases mem_held_or_new hdistinct htidy hheld hreverse (List.mem_reverse.mpr h) with h | h
      · rcases List.mem_append.mp h with h | h
        · exact .inl h
        · exact .inr (.inr h)
      · exact .inr (.inl h)

/-- **What a step has to show**: what becomes known stays, and what it takes in or puts on its way is
    newer than all that is still missing. -/
theorem Inv.extend {s s' : State κ τ} (h : Inv s) (hstore : s'.store = s.store)
    (hstored : ∀ record ∈ s'.known, record ∈ s.known ∨ record ∈ s.store)
    (hpaged : ∀ page ∈ s'.pages, page ∈ s.pages ∨ ∀ record ∈ page, record ∈ s.store)
    (htidy : s'.feed.Tidy) (hknown : ∀ record ∈ s.known, record ∈ s'.known)
    (hheld : ∀ record ∈ s.store, record ∉ s'.known → ∀ other ∈ s'.held,
      other ∈ s.held ∨ record.timestamp < other.timestamp)
    (hpages : ∀ record ∈ s.store, record ∉ s'.known → ∀ page ∈ s'.pages,
      page ∈ s.pages ∨ OlderThan page record)
    (hbound : ∀ record ∈ s.store, record ∉ s'.known → ∀ bound ∈ s'.bound,
      bound ∈ s.bound ∨ record.timestamp < bound) (hexhausted : s'.feed.isExhausted = true → s'.culled = false →
      ∀ record ∈ s.store, record ∈ s'.known) : Inv s' := by
  refine ⟨?_, ?_, ?_, htidy, ?_, ?_⟩
  · rw [hstore]
    exact h.distinct
  · rw [hstore]
    exact fun record hrecord => (hstored record hrecord).elim (h.stored record) id
  · rw [hstore]
    exact fun page hpage => (hpaged page hpage).elim (h.paged page) id
  · rw [hstore]
    intro record hrecord hnot
    have hbeyond := h.missing record hrecord fun hmem => hnot (hknown record hmem)
    refine ⟨?_, ?_, ?_⟩
    · exact fun other hother => (hheld record hrecord hnot other hother).elim (hbeyond.held other) id
    · exact fun page hpage => (hpages record hrecord hnot page hpage).elim (hbeyond.pages page) id
    · exact fun bound hb => (hbound record hrecord hnot bound hb).elim (hbeyond.bound bound) id
  · rw [hstore]
    exact hexhausted

variable {s : State κ τ} {page : List (Record κ τ)}

theorem Inv.known_of_empty (h : Inv s) (hpage : page ∈ s.pages)
    (hempty : page = []) : ∀ record ∈ s.store, record ∈ s.known ∨ record ∈ page := by
  intro record hrecord
  by_contra hnot
  rw [not_or] at hnot
  have hbeyond := (h.missing record hrecord hnot.1).pages page hpage
  exact (hbeyond.resolve_left hnot.2).1 hempty

/-- What is dropped has to be beyond what stays. -/
theorem Inv.drop {s s' : State κ τ} (h : Inv s) (hstore : s'.store = s.store)
    (hknown : ∀ record ∈ s'.known, record ∈ s.known) (hheld : ∀ record ∈ s'.held, record ∈ s.held)
    (hpages : s'.pages = s.pages) (hbound : s'.bound = s.bound) (htidy : s'.feed.Tidy)
    (hdropped : ∀ record ∈ s.known, record ∉ s'.known → Beyond s' record)
    (hexhausted : s'.feed.isExhausted = true → s'.culled = false →
      ∀ record ∈ s.store, record ∈ s'.known) : Inv s' := by
  refine ⟨?_, ?_, ?_, htidy, ?_, ?_⟩
  · rw [hstore]
    exact h.distinct
  · rw [hstore]
    exact fun record hrecord => h.stored record (hknown record hrecord)
  · rw [hstore, hpages]
    exact h.paged
  · rw [hstore]
    intro record hrecord hnot
    by_cases hmem : record ∈ s.known
    · exact hdropped record hmem hnot
    · have hbeyond := h.missing record hrecord hmem
      refine ⟨fun other hother => hbeyond.held other (hheld other hother), ?_, ?_⟩
      · rw [hpages]
        exact hbeyond.pages
      · rw [hbound]
        exact hbeyond.bound
  · rw [hstore]
    exact hexhausted

/-! ## 3. The steps -/

theorem reset_inv (h : Inv s) (hcalm : ∀ record ∈ s.known, Beyond s.reset record) : Inv s.reset := by
  refine h.drop rfl ?_ ?_ rfl rfl (reset_tidy s.feed) (fun record hrecord _ => hcalm record hrecord) ?_
  · exact fun record hrecord => absurd hrecord List.not_mem_nil
  · exact fun record hrecord => absurd hrecord List.not_mem_nil
  · intro hexhausted
    exact absurd hexhausted (by simp [State.reset, Feed.reset])

theorem cull_rows (f : Feed κ τ) (keep : Nat) : (f.cull keep).rows = f.rows.drop (f.rows.length - keep) ∧
      (f.cull keep).previousBuffer = f.previousBuffer ∧
      (f.cull keep).pendingAppends = f.pendingAppends ∧
      (f.cull keep).isExhausted = f.isExhausted := by
  unfold Feed.cull
  split
  · exact ⟨rfl, rfl, rfl, rfl⟩
  · rename_i hnone
    rw [Nat.eq_zero_of_not_pos hnone, List.drop_zero]
    exact ⟨rfl, rfl, rfl, rfl⟩

theorem cull_inv {keep : Nat} (h : Inv s)
    (hcalm : ∀ record ∈ s.known, record ∉ (s.cull keep).known → Beyond (s.cull keep) record) :
    Inv (s.cull keep) := by
  obtain ⟨hrows, hbuffer, hpending, hexhausted⟩ := cull_rows s.feed keep
  have hheld : ∀ record ∈ (s.cull keep).held, record ∈ s.held := by
    intro record hrecord
    simp only [State.held, State.cull, hrows, hbuffer, List.mem_append] at hrecord ⊢
    exact hrecord.imp_left List.mem_of_mem_drop
  refine h.drop rfl ?_ hheld rfl rfl (cull_tidy h.tidy keep) hcalm ?_
  · intro record hrecord
    rcases List.mem_append.mp hrecord with hrecord | hrecord
    · exact List.mem_append_left _ (hheld record hrecord)
    · simp only [State.cull, hpending] at hrecord
      exact List.mem_append_right _ hrecord
  · intro hexhausted' hculled
    simp only [State.cull, Bool.or_eq_false_iff, decide_eq_false_iff_not] at hculled
    -- nothing is culled, so nothing changes
    have hsame : s.feed.cull keep = s.feed := if_neg hculled.2
    simp only [State.cull, State.known, State.held, hsame] at hexhausted' ⊢
    exact h.exhausted hexhausted' hculled.1

variable {arranged : List (Record κ τ)}

/-- **The engine answers** with a page that does not end among records of one timestamp. -/
theorem olderThan_answer {before : Option τ} {limit : Nat} (harranged : s.Arranged before arranged)
    (hwhole : WholePage limit arranged) (hrecord : record ∈ s.store)
    (hbefore : ∀ bound ∈ before, record.timestamp < bound) : OlderThan (arranged.take limit) record := by
  have hmem : record ∈ arranged := by
    refine harranged.1.mem_iff.mpr (List.mem_filter.mpr ⟨hrecord, ?_⟩)
    cases before with
    | none => rfl
    | some bound => exact decide_eq_true (hbefore bound rfl)
  have hsplit := List.take_append_drop limit arranged
  rw [← hsplit] at hmem
  rcases List.mem_append.mp hmem with htake | hdrop
  · exact .inl htake
  · refine .inr ⟨?_, fun other hother => ?_⟩
    · intro hnil
      have hlength := congrArg List.length hnil
      have hlong := List.length_pos_of_mem hdrop
      rw [List.length_take, List.length_nil] at hlength
      rw [List.length_drop] at hlong
      have hlimit := hwhole.1
      omega
    · have horder : record.timestamp ≤ other.timestamp := by
        have hsorted := List.pairwise_reverse.mp harranged.2
        rw [← hsplit] at hsorted
        exact (List.pairwise_append.mp hsorted).2.2 other hother record hdrop
      exact lt_of_le_of_ne horder (hwhole.2 record hdrop other hother)

theorem mem_answer {before : Option τ} {limit : Nat} (harranged : s.Arranged before arranged)
    (h : record ∈ arranged.take limit) : record ∈ s.store :=
  (List.mem_filter.mp (harranged.1.mem_iff.mp (List.mem_of_mem_take h))).1

theorem answerLoad_inv {i : Nat} {load : Load κ τ} (h : Inv s) (harranged : s.Arranged none arranged)
    (hwhole : WholePage load.limit arranged) : Inv (s.answerLoad i load arranged) := by
  have hpages : ∀ page ∈ (s.answerLoad i load arranged).pages,
      page ∈ s.pages ∨ page = arranged.take load.limit := by
    intro page hpage
    rcases List.mem_append.mp hpage with hpage | hpage
    · obtain ⟨other, hother, heq⟩ := List.mem_filterMap.mp hpage
      rcases List.mem_or_eq_of_mem_set hother with hother | rfl
      · exact .inl (List.mem_append_left _ (List.mem_filterMap.mpr ⟨other, hother, heq⟩))
      · exact .inr (Option.some.inj heq).symm
    · exact .inl (List.mem_append_right _ hpage)
  refine h.extend rfl (fun _ hrecord => .inl hrecord) ?_ h.tidy (fun _ hrecord => hrecord)
    (fun _ _ _ _ hother => .inl hother) ?_ (fun _ _ _ _ hbound => .inl hbound) h.exhausted
  · exact fun page hpage => (hpages page hpage).imp_right fun heq record hrecord =>
      mem_answer harranged (heq ▸ hrecord)
  · intro record hrecord _ page hpage
    refine (hpages page hpage).imp_right fun heq => ?_
    rw [heq]
    exact olderThan_answer harranged hwhole hrecord (by simp)

theorem answerPrevious_inv {previous : Previous κ τ} (h : Inv s) (hprevious : s.previous = some previous)
    (hpage : previous.page = none) (harranged : s.Arranged previous.before arranged)
    (hwhole : WholePage previous.limit arranged) : Inv (s.answerPrevious previous arranged) := by
  have hpages : ∀ page ∈ (s.answerPrevious previous arranged).pages,
      page ∈ s.pages ∨ page = arranged.take previous.limit := by
    intro page hmem
    rcases List.mem_append.mp hmem with hmem | hmem
    · exact .inl (List.mem_append_left _ hmem)
    · exact .inr (by simpa [State.answerPrevious, eq_comm] using hmem)
  have hbound : s.bound = previous.before := by
    simp [State.bound, hprevious, hpage]
  refine h.extend rfl (fun _ hrecord => .inl hrecord) ?_ h.tidy (fun _ hrecord => hrecord)
    (fun _ _ _ _ hother => .inl hother) ?_ ?_ h.exhausted
  · exact fun page hmem => (hpages page hmem).imp_right fun heq record hrecord =>
      mem_answer harranged (heq ▸ hrecord)
  · intro record hrecord hnot page hmem
    have hbeyond := h.missing record hrecord hnot
    refine (hpages page hmem).imp_right fun heq => ?_
    rw [heq]
    refine olderThan_answer harranged hwhole hrecord ?_
    rw [← hbound]
    exact hbeyond.bound
  · intro record _ _ bound hmem
    exact absurd hmem (by simp [State.bound, State.answerPrevious])

theorem pages_erase {i : Nat} {feed : Feed κ τ}
    (h : page ∈ State.pages { s with feed := feed, loads := s.loads.eraseIdx i }) : page ∈ s.pages := by
  rcases List.mem_append.mp h with h | h
  · obtain ⟨other, hother, heq⟩ := List.mem_filterMap.mp h
    exact List.mem_append_left _
      (List.mem_filterMap.mpr ⟨other, List.mem_of_mem_eraseIdx hother, heq⟩)
  · exact List.mem_append_right _ h

theorem Inv.held_stored (h : Inv s) : ∀ record ∈ s.held, record ∈ s.store :=
  fun record hrecord => h.stored record (List.mem_append_left _ hrecord)

theorem Inv.pending_stored (h : Inv s) : ∀ record ∈ s.feed.pendingAppends, record ∈ s.store :=
  fun record hrecord => h.stored record (List.mem_append_right _ hrecord)

/-- **A load is received**: its page and what waits join the rows. -/
theorem loaded_inv {i : Nat} {load : Load κ τ} (h : Inv s) (hi : s.loads[i]? = some load)
    (hload : load.page = some page) (hcalm : Newer s page s.feed.pendingAppends) :
    Inv { s with feed := s.feed.loaded page, loads := s.loads.eraseIdx i } := by
  have hpage : page ∈ s.pages := List.mem_append_left _
    (List.mem_filterMap.mpr ⟨load, List.mem_of_getElem? hi, hload⟩)
  have hoffered : ∀ record ∈ page.reverse ++ s.feed.pendingAppends, record ∈ s.store := by
    intro record hrecord
    rcases List.mem_append.mp hrecord with hrecord | hrecord
    · exact h.paged page hpage record (List.mem_reverse.mp hrecord)
    · exact h.pending_stored record hrecord
  have hrows : State.held { s with feed := s.feed.loaded page, loads := s.loads.eraseIdx i } =
      (s.feed.append (page.reverse ++ s.feed.pendingAppends)).rows ++ s.feed.previousBuffer := rfl
  have hheld : ∀ record, record ∈ State.held
      { s with feed := s.feed.loaded page, loads := s.loads.eraseIdx i } ↔
        record ∈ s.known ∨ record ∈ page := by
    intro record
    rw [hrows, mem_append h.distinct h.tidy h.held_stored hoffered]
    simp only [State.known, State.held, List.mem_append, List.mem_reverse]
    tauto
  have hknown : ∀ record, record ∈ State.known
      { s with feed := s.feed.loaded page, loads := s.loads.eraseIdx i } ↔
        record ∈ s.known ∨ record ∈ page := by
    intro record
    rw [State.known, List.mem_append, hheld]
    simp [Feed.loaded, Feed.append]
  have htidy := append_tidy h.tidy (page.reverse ++ s.feed.pendingAppends)
  refine h.extend rfl ?_ (fun other hother => .inl (pages_erase hother)) ⟨htidy.nodup, htidy.held⟩
    (fun record hrecord => (hknown record).mpr (.inl hrecord)) ?_
    (fun _ _ _ other hother => .inl (pages_erase hother)) (fun _ _ _ bound hbound => .inl hbound) ?_
  · intro record hrecord
    exact ((hknown record).mp hrecord).imp_right (h.paged page hpage record)
  · intro record hrecord hnot other hother
    rw [hknown, not_or] at hnot
    rcases (hheld other).mp hother with hother | hother
    · rcases List.mem_append.mp hother with hother | hother
      · exact .inl hother
      · exact .inr (hcalm record hrecord hnot.1 hnot.2 other hother)
    · have hbeyond := (h.missing record hrecord hnot.1).pages page hpage
      exact .inr ((hbeyond.resolve_left hnot.2).2 other hother)
  · intro hexhausted _ record hrecord
    exact (hknown record).mpr (h.known_of_empty hpage (List.isEmpty_iff.mp hexhausted) record hrecord)

theorem flushPending_inv (h : Inv s) (hcalm : Newer s [] s.feed.pendingAppends) :
    Inv { s with feed := s.feed.flushPending } := by
  have hrows : State.held { s with feed := s.feed.flushPending } =
      (s.feed.append s.feed.pendingAppends).rows ++ s.feed.previousBuffer := rfl
  have hheld : ∀ record, record ∈ State.held { s with feed := s.feed.flushPending } ↔ record ∈ s.known := by
    intro record
    rw [hrows, mem_append h.distinct h.tidy h.held_stored h.pending_stored]
    simp only [State.known, State.held, List.mem_append]
  have hknown : ∀ record, record ∈ State.known { s with feed := s.feed.flushPending } ↔ record ∈ s.known := by
    intro record
    rw [State.known, List.mem_append, hheld]
    simp [Feed.flushPending, Feed.append]
  have htidy := append_tidy h.tidy s.feed.pendingAppends
  refine h.extend rfl (fun record hrecord => .inl ((hknown record).mp hrecord))
    (fun _ hpage => .inl hpage) ⟨htidy.nodup, htidy.held⟩
    (fun record hrecord => (hknown record).mpr hrecord) ?_ (fun _ _ _ _ hpage => .inl hpage)
    (fun _ _ _ _ hbound => .inl hbound) ?_
  · intro record hrecord hnot other hother
    rw [hknown] at hnot
    rcases List.mem_append.mp ((hheld other).mp hother) with hother | hother
    · exact .inl hother
    · exact .inr (hcalm record hrecord hnot List.not_mem_nil other hother)
  · intro hexhausted hculled record hrecord
    exact (hknown record).mpr (h.exhausted hexhausted hculled record hrecord)

theorem arrive_inv (h : Inv s) (hnew : record ∈ s.store ∨ record.id ∉ ids s.store) : Inv { s with
      feed := { s.feed with pendingAppends := s.feed.pendingAppends ++ [record] }
      store := if record ∈ s.store then s.store else record :: s.store } := by
  have hstore : ∀ other, other ∈ (if record ∈ s.store then s.store else record :: s.store) ↔
      other ∈ s.store ∨ other = record := by
    intro other
    split
    · rename_i hmem
      exact ⟨.inl, fun hother => hother.elim id fun heq => heq ▸ hmem⟩
    · rw [List.mem_cons, or_comm]
  have hknown : ∀ other, other ∈ s.held ++ (s.feed.pendingAppends ++ [record]) ↔
      other ∈ s.known ∨ other = record := by
    intro other
    rw [State.known, List.mem_append, List.mem_append, List.mem_append, List.mem_singleton, or_assoc]
  refine ⟨?_, ?_, ?_, ⟨h.tidy.nodup, h.tidy.held⟩, ?_, ?_⟩
  · simp only
    split
    · exact h.distinct
    · rename_i hmem
      exact List.nodup_cons.mpr ⟨hnew.resolve_left hmem, h.distinct⟩
  · intro other hother
    rw [hstore]
    exact ((hknown other).mp hother).imp_left (h.stored other)
  · intro page hpage other hother
    rw [hstore]
    exact .inl (h.paged page hpage other hother)
  · intro other hother hnot
    rw [hstore] at hother
    have hnot : ¬ (other ∈ s.known ∨ other = record) := fun hmem => hnot ((hknown other).mpr hmem)
    rw [not_or] at hnot
    have hbeyond := h.missing other (hother.resolve_right hnot.2) hnot.1
    exact ⟨hbeyond.held, hbeyond.pages, hbeyond.bound⟩
  · intro hexhausted hculled other hother
    rw [hstore] at hother
    refine (hknown other).mpr (hother.imp_left ?_)
    exact h.exhausted hexhausted hculled other

/-- **A live record** that is not held back joins the rows. -/
theorem receive_inv {hold : Bool} (h : Inv s) (hnew : record ∈ s.store ∨ record.id ∉ ids s.store)
    (hcalm : (hold || s.feed.isLoadingCurrent) = true ∨ Newer s [record] [record]) :
    Inv (s.receive record hold) := by
  have harrive := arrive_inv h hnew
  by_cases hwaits : (hold || s.feed.isLoadingCurrent) = true
  · have hreceive : s.feed.receive record hold =
        { s.feed with pendingAppends := s.feed.pendingAppends ++ [record] } := if_pos hwaits
    rw [State.receive, hreceive]
    exact harrive
  · have hreceive : s.feed.receive record hold = s.feed.append [record] := if_neg hwaits
    have hstored : ∀ other ∈ [record], other ∈ if record ∈ s.store then s.store else record :: s.store := by
      intro other hother
      rw [List.mem_singleton.mp hother]
      exact harrive.stored record
        (List.mem_append_right _ (List.mem_append_right _ (List.mem_singleton_self record)))
    have hold' : ∀ other ∈ s.held, other ∈ if record ∈ s.store then s.store else record :: s.store :=
      fun other hother => harrive.stored other (List.mem_append_left _ hother)
    have hheld : ∀ other, other ∈ (s.receive record hold).held ↔ other ∈ s.held ∨ other = record := by
      intro other
      have hrows : (s.receive record hold).held = (s.feed.append [record]).rows ++ s.feed.previousBuffer := by
        rw [State.held, State.receive, hreceive]
        rfl
      rw [hrows, mem_append harrive.distinct h.tidy hold' hstored, List.mem_singleton]
      rfl
    have hpending : (s.receive record hold).feed.pendingAppends = s.feed.pendingAppends := by
      rw [State.receive, hreceive]
      rfl
    have hknown : ∀ other, other ∈ (s.receive record hold).known ↔ other ∈ s.known ∨ other = record := by
      intro other
      rw [State.known, List.mem_append, hheld, hpending, State.known, List.mem_append]
      tauto
    refine harrive.extend rfl ?_ (fun _ hpage => .inl hpage) ?_ ?_ ?_ (fun _ _ _ _ hpage => .inl hpage)
      (fun _ _ _ _ hbound => .inl hbound) ?_
    · intro other hother
      refine .inl ?_
      rcases (hknown other).mp hother with hother | hother
      · rcases List.mem_append.mp hother with hother | hother
        · exact List.mem_append_left _ hother
        · exact List.mem_append_right _ (List.mem_append_left _ hother)
      · exact List.mem_append_right _
          (List.mem_append_right _ (List.mem_singleton.mpr hother))
    · rw [State.receive, hreceive]
      exact append_tidy h.tidy [record]
    · intro other hother
      rw [hknown]
      rcases List.mem_append.mp hother with hother | hother
      · exact .inl (List.mem_append_left _ hother)
      · rcases List.mem_append.mp hother with hother | hother
        · exact .inl (List.mem_append_right _ hother)
        · exact .inr (List.mem_singleton.mp hother)
    · intro missing hmissing hnot other hother
      rw [hknown, not_or] at hnot
      rcases (hheld other).mp hother with hother | rfl
      · exact .inl hother
      · have hold : missing ∈ s.store := by
          simp only at hmissing
          split at hmissing
          · exact hmissing
          · exact (List.mem_cons.mp hmissing).resolve_left hnot.2
        exact .inr (hcalm.resolve_left hwaits missing hold hnot.1
          (fun hmem => hnot.2 (List.mem_singleton.mp hmem)) other (List.mem_singleton_self other))
    · intro hexhausted hculled other hother
      rw [State.receive, hreceive] at hexhausted
      have hall := harrive.exhausted hexhausted hculled other hother
      rw [hknown]
      rcases List.mem_append.mp hall with hall | hall
      · exact .inl (List.mem_append_left _ hall)
      · rcases List.mem_append.mp hall with hall | hall
        · exact .inl (List.mem_append_right _ hall)
        · exact .inr (List.mem_singleton.mp hall)

/-- A request that is not answered puts nothing on its way. -/
theorem loadCurrent_inv (h : Inv s) (limit : Nat) : Inv { s with loads := s.loads ++ [⟨limit, none⟩] } := by
  have hpages : State.pages { s with loads := s.loads ++ [⟨limit, none⟩] } = s.pages := by
    simp [State.pages]
  refine h.drop rfl (fun _ hrecord => hrecord) (fun _ hrecord => hrecord) hpages rfl h.tidy
    (fun record hrecord hnot => absurd hrecord hnot) h.exhausted

theorem loadDropped_inv {i : Nat} (h : Inv s) : Inv { s with
      feed := { s.feed with isLoadingCurrent := false }
      loads := s.loads.eraseIdx i } := by
  refine h.extend rfl (fun _ hrecord => .inl hrecord) (fun _ hpage => .inl (pages_erase hpage))
    ⟨h.tidy.nodup, h.tidy.held⟩ (fun _ hrecord => hrecord) (fun _ _ _ _ hother => .inl hother)
    (fun _ _ _ _ hpage => .inl (pages_erase hpage)) (fun _ _ _ _ hbound => .inl hbound) h.exhausted

theorem pages_of_loads (h : page ∈ s.loads.filterMap Load.page ++ []) : page ∈ s.pages := by
  rw [List.append_nil] at h
  exact List.mem_append_left _ h

theorem fetchDropped_inv (h : Inv s) : Inv { s with
      feed := { s.feed with isLoadingPrevious := false }
      previous := none } := by
  refine h.extend rfl (fun _ hrecord => .inl hrecord) (fun _ hpage => .inl (pages_of_loads hpage))
    ⟨h.tidy.nodup, h.tidy.held⟩ (fun _ hrecord => hrecord) (fun _ _ _ _ hother => .inl hother)
    (fun _ _ _ _ hpage => .inl (pages_of_loads hpage)) ?_ h.exhausted
  intro record _ _ bound hbound
  exact absurd hbound (by simp [State.bound])

theorem earliestHeldTimestamp_held {f : Feed κ τ} {bound : τ} (h : bound ∈ f.earliestHeldTimestamp) :
    ∃ record ∈ f.rows ++ f.previousBuffer, record.timestamp = bound := by
  unfold Feed.earliestHeldTimestamp at h
  cases hbuffer : f.previousBuffer.head? with
  | some record =>
    rw [hbuffer] at h
    exact ⟨record, List.mem_append_right _ (List.mem_of_head? hbuffer), Option.some.inj h⟩
  | none =>
    rw [hbuffer] at h
    obtain ⟨record, hrow, heq⟩ := Option.map_eq_some_iff.mp h
    exact ⟨record, List.mem_append_left _ (List.mem_of_head? hrow), heq⟩

theorem fetchPrevious_inv (h : Inv s) (settled : Bool) (limit : Nat) : Inv (s.fetchPrevious settled limit) := by
  unfold State.fetchPrevious
  split
  · refine h.extend rfl (fun _ hrecord => .inl hrecord) (fun _ hpage => .inl (pages_of_loads hpage))
      ⟨h.tidy.nodup, h.tidy.held⟩ (fun _ hrecord => hrecord) (fun _ _ _ _ hother => .inl hother)
      (fun _ _ _ _ hpage => .inl (pages_of_loads hpage)) ?_ h.exhausted
    -- what is missing is older than every held record, the one that gives the bound among them
    intro record hrecord hnot bound hbound
    have hbound : bound ∈ s.feed.earliestHeldTimestamp := by simpa [State.bound] using hbound
    obtain ⟨other, hother, rfl⟩ := earliestHeldTimestamp_held hbound
    exact .inr ((h.missing record hrecord hnot).held other hother)
  · exact h

/-- **An older page is received** into the buffer. -/
theorem fetched_inv (h : Inv s) (hprevious : (s.previous.bind fun previous => previous.page) = some page) :
    Inv { s with feed := s.feed.fetched page, previous := none } := by
  have hpage : page ∈ s.pages := by
    refine List.mem_append_right _ ?_
    rw [hprevious]
    exact List.mem_singleton_self page
  have hheld : ∀ record, record ∈ State.held { s with feed := s.feed.fetched page, previous := none } ↔
      record ∈ s.held ∨ record ∈ page :=
    mem_fetched h.distinct h.tidy h.held_stored (h.paged page hpage)
  have hknown : ∀ record, record ∈ State.known { s with feed := s.feed.fetched page, previous := none } ↔
      record ∈ s.known ∨ record ∈ page := by
    intro record
    have hpending : (s.feed.fetched page).pendingAppends = s.feed.pendingAppends := rfl
    rw [State.known, List.mem_append, hheld, hpending, State.known, List.mem_append]
    tauto
  refine h.extend rfl ?_ (fun _ hother => .inl (pages_of_loads hother)) (fetched_tidy h.tidy page)
    (fun record hrecord => (hknown record).mpr (.inl hrecord)) ?_
    (fun _ _ _ _ hother => .inl (pages_of_loads hother)) ?_ ?_
  · intro record hrecord
    exact ((hknown record).mp hrecord).imp_right (h.paged page hpage record)
  · intro record hrecord hnot other hother
    rw [hknown, not_or] at hnot
    rcases (hheld other).mp hother with hother | hother
    · exact .inl hother
    · have hbeyond := (h.missing record hrecord hnot.1).pages page hpage
      exact .inr ((hbeyond.resolve_left hnot.2).2 other hother)
  · intro record _ _ bound hbound
    exact absurd hbound (by simp [State.bound])
  · intro hexhausted _ record hrecord
    exact (hknown record).mpr (h.known_of_empty hpage (List.isEmpty_iff.mp hexhausted) record hrecord)

theorem placePrevious_inv (h : Inv s) : Inv { s with feed := s.feed.placePrevious } := by
  have hheld : ∀ record, record ∈ State.held { s with feed := s.feed.placePrevious } ↔ record ∈ s.held := by
    intro record
    simp only [State.held, Feed.placePrevious, List.mem_append, List.not_mem_nil, or_false]
    exact or_comm
  have hknown : ∀ record, record ∈ State.known { s with feed := s.feed.placePrevious } ↔ record ∈ s.known := by
    intro record
    rw [State.known, List.mem_append, hheld, State.known, List.mem_append]
    rfl
  refine h.extend rfl (fun record hrecord => .inl ((hknown record).mp hrecord))
    (fun _ hpage => .inl hpage) (placePrevious_tidy h.tidy)
    (fun record hrecord => (hknown record).mpr hrecord)
    (fun _ _ _ other hother => .inl ((hheld other).mp hother)) (fun _ _ _ _ hpage => .inl hpage)
    (fun _ _ _ _ hbound => .inl hbound) ?_
  intro hexhausted hculled record hrecord
  exact (hknown record).mpr (h.exhausted hexhausted hculled record hrecord)

/-- **One step** of a calm run. -/
theorem step_inv (s : State κ τ) (a : Action κ τ) (s' : State κ τ) (h : Inv s) (hcalm : Calm s a)
    (hstep : step s a = some s') : Inv s' := by
  cases a with
  | loadCurrent limit =>
    obtain rfl := Option.some.inj hstep
    exact loadCurrent_inv (reset_inv h hcalm) limit
  | answerLoad i arranged =>
    obtain ⟨load, hload, hstep⟩ := Option.bind_eq_some_iff.mp hstep
    obtain ⟨⟨_, harranged⟩, heq⟩ := Option.ite_none_right_eq_some.mp hstep
    obtain rfl := Option.some.inj heq
    exact answerLoad_inv h harranged (hcalm load hload)
  | loaded i =>
    obtain ⟨page, hpage, rfl⟩ := Option.map_eq_some_iff.mp hstep
    obtain ⟨load, hload, hpage⟩ := Option.bind_eq_some_iff.mp hpage
    exact loaded_inv h hload hpage (hcalm load hload page hpage)
  | loadDropped i =>
    obtain ⟨load, _, rfl⟩ := Option.map_eq_some_iff.mp hstep
    exact loadDropped_inv h
  | fetchPrevious settled limit =>
    obtain rfl := Option.some.inj hstep
    exact fetchPrevious_inv h settled limit
  | answerPrevious arranged =>
    obtain ⟨previous, hprevious, hstep⟩ := Option.bind_eq_some_iff.mp hstep
    obtain ⟨⟨hpage, harranged⟩, heq⟩ := Option.ite_none_right_eq_some.mp hstep
    obtain rfl := Option.some.inj heq
    exact answerPrevious_inv h hprevious hpage harranged (hcalm previous hprevious)
  | fetched =>
    obtain ⟨page, hpage, rfl⟩ := Option.map_eq_some_iff.mp hstep
    exact fetched_inv h hpage
  | fetchDropped =>
    obtain ⟨previous, _, rfl⟩ := Option.map_eq_some_iff.mp hstep
    exact fetchDropped_inv h
  | placePrevious =>
    obtain rfl := Option.some.inj hstep
    exact placePrevious_inv h
  | receive record hold =>
    obtain ⟨hnew, heq⟩ := Option.ite_none_right_eq_some.mp hstep
    obtain rfl := Option.some.inj heq
    exact receive_inv h hnew hcalm
  | flushPending =>
    obtain rfl := Option.some.inj hstep
    exact flushPending_inv h hcalm
  | cull keep =>
    obtain rfl := Option.some.inj hstep
    exact cull_inv h hcalm
  | reset =>
    obtain rfl := Option.some.inj hstep
    exact reset_inv h hcalm

/-! ## 4. Nothing is skipped -/

/-- What the feed promises: with nothing in flight and nothing pending, all that lies between two held
    records is held; and once it is exhausted, with nothing culled, all that is older as well. -/
structure State.SkipsNone (s : State κ τ) : Prop where
  between : s.loads = [] → s.previous = none → s.feed.pendingAppends = [] →
    ∀ record ∈ s.store, ∀ oldest ∈ s.held, ∀ newest ∈ s.held,
      oldest.timestamp ≤ record.timestamp → record.timestamp ≤ newest.timestamp → record ∈ s.held
  exhausted : s.feed.isExhausted = true → s.culled = false → s.feed.pendingAppends = [] →
    ∀ record ∈ s.store, ∀ newest ∈ s.held, record.timestamp ≤ newest.timestamp → record ∈ s.held

theorem Inv.skipsNone (h : Inv s) : s.SkipsNone := by
  have hheld : s.feed.pendingAppends = [] → ∀ record, record ∈ s.known → record ∈ s.held := by
    intro hpending record hrecord
    rwa [State.known, hpending, List.append_nil] at hrecord
  constructor
  · intro _ _ hpending record hrecord oldest holdest _ _ hle _
    by_contra hnot
    have hbeyond := h.missing record hrecord fun hmem => hnot (hheld hpending record hmem)
    exact absurd (hbeyond.held oldest holdest) (not_lt.mpr hle)
  · intro hexhausted hculled hpending record hrecord _ _ _
    exact hheld hpending record (h.exhausted hexhausted hculled record hrecord)

/-- **The feed skips no record.** In a run in which no page ends among records of one timestamp, what is
    dropped is older than everything that stays or is on its way, and what is taken in live is newer
    than everything that is not held. -/
theorem feed_skips_none (store : List (Record κ τ)) (hstore : (ids store).Nodup)
    (actions : List (Action κ τ)) (s : State κ τ)
    (hcalm : Along step Calm (State.initial store) actions)
    (hrun : run step (State.initial store) actions = some s) : s.SkipsNone :=
  (run_inv step_inv actions _ s (inv_initial hstore) hcalm hrun).skipsNone

/-- Two pages and a live record; the second page is asked for until none is left. -/
def skipsNoneRun : List (Action String Nat) :=
  [.loadCurrent 2, .answerLoad 0 [⟨"c", 3⟩, ⟨"b", 2⟩, ⟨"a", 1⟩], .receive ⟨"d", 4⟩ false, .loaded 0,
    .fetchPrevious true 2, .answerPrevious [⟨"a", 1⟩], .fetched, .placePrevious, .fetchPrevious true 2,
    .answerPrevious [], .fetched]

theorem feed_skips_none_skipsNoneRun :
    Along step Calm (State.initial [⟨"a", 1⟩, ⟨"b", 2⟩, ⟨"c", 3⟩]) skipsNoneRun ∧
      ∃ s, run step (State.initial [⟨"a", 1⟩, ⟨"b", 2⟩, ⟨"c", 3⟩]) skipsNoneRun = some s ∧
        ids s.feed.rows = ["a", "b", "c", "d"] ∧ s.feed.isExhausted = true ∧ s.SkipsNone := by
  refine ⟨by decide, _, rfl, by decide, by decide, ?_⟩
  exact feed_skips_none [⟨"a", 1⟩, ⟨"b", 2⟩, ⟨"c", 3⟩] (by decide) skipsNoneRun _
    (by decide) rfl

/-- **A tie at the end of a page.** The page before timestamp 1 leaves out the other record of
    timestamp 1, and the feed is exhausted without it. -/
theorem tie_skipped :
    ¬ ∀ (store : List (Record String Nat)) (actions : List (Action String Nat)) (s : State String Nat),
      (ids store).Nodup → run step (State.initial store) actions = some s → s.SkipsNone := by
  intro h
  have hskips := h [⟨"a", 1⟩, ⟨"b", 1⟩]
    [.loadCurrent 1, .answerLoad 0 [⟨"b", 1⟩, ⟨"a", 1⟩], .loaded 0, .fetchPrevious true 1,
      .answerPrevious [], .fetched] _ (by decide) rfl
  have hheld := hskips.exhausted rfl rfl rfl ⟨"a", 1⟩ (by decide) ⟨"b", 1⟩ (by decide)
    le_rfl
  exact absurd hheld (by decide)

end Ceres.Console.FeedStore
