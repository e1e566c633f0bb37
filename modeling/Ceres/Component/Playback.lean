/-
  File:      Ceres/Component/Playback.lean
  Subject:   THE RANGE OF A PLAYBACK (`__internal__/playback.py`: `PlaybackManager.__range`, the deletion
             of `__play`).

  A playback deletes the stored particles of its sieves in a range and replays the stored messages there.
  `__range` widens the requested range to the files of the exporters, then goes through the sieves: one
  that has a message left in the range moves its start to the sieve's oldest message.

  * `playbackRange` -- the range, and the sieves kept in it; `accepts` is one turn of the loop;
  * `Rebuildable` -- every sieve kept has messages in the range and none of its particles lies before its
    messages; and the order of the sieves is all one;
  * `Together` -- any two sieves with messages in the widened range: the one has messages from the
    other's oldest on;
  * **`range_rebuildable_iff`** -- the first holds exactly if the second does;
  * `early_sieve_kept` -- a sieve that is kept before another one moves the start past its messages.
-/
import Ceres.Component.JobManager
import Ceres.Exporter.Span

namespace Ceres.Component.Playback

open Ceres.Exporter Ceres.Component.JobManager

/-! ## 1. Messages and sieves -/

/-- A stored message of the component. -/
structure Message where
  timestamp : Int
  id : Nat
  connection : Option String
  data : List UInt8
  deriving DecidableEq

/-- The order of `timestamp:asc, id:asc`. -/
def Message.le (m other : Message) : Prop :=
  m.timestamp < other.timestamp ∨ m.timestamp = other.timestamp ∧ m.id ≤ other.id

instance : DecidableRel Message.le := fun _ _ => instDecidableOr

instance : Std.Total Message.le where
  total m other := by
    unfold Message.le
    omega

instance : IsTrans Message Message.le where
  trans a b c := by
    unfold Message.le
    omega

/-- A sieve as it is registered; `types` are the particle types its function declares. -/
structure SieveConfig where
  name : String
  stored : Bool
  types : List String
  filter : Message → Bool

/-- The messages of a sieve between two bounds, in order. -/
def sieveMessages (messages : List Message) (config : SieveConfig) (after before : Option Int) : List Message :=
  (messages.filter fun m => config.filter m && after.all (fun t => decide (t ≤ m.timestamp)) &&
    before.all fun t => decide (m.timestamp < t)).insertionSort Message.le

/-- `first()` of them. -/
def first (messages : List Message) (config : SieveConfig) (after before : Option Int) : Option Message :=
  (sieveMessages messages config after before).head?

/-- A registered exporter; `type` is the particle type of its class, when it has one. -/
structure ExporterConfig where
  name : String
  exports : EntityType
  type : Option (Option String)
  period : ExporterPeriod

inductive PlaybackError where
  /-- `after` must precede `before`. -/
  | range
  /-- A stored sieve that declares no particle type. -/
  | untyped (sieve : String)
  /-- The component has no sieve that stores particles. -/
  | noSieve
  deriving DecidableEq

structure PlaybackRequest where
  after : Int
  before : Option Int
  now : Int
  exporting : Bool
  rangeMode : ExportRangeMode

structure PlaybackRange where
  requestedAfter : Int
  requestedBefore : Int
  after : Int
  before : Int
  sieves : List (SieveConfig × List String)
  exporters : List String

/-- What the range is read from, apart from the sieves. -/
structure Store where
  messages : List Message
  exporters : List ExporterConfig

/-! ## 2. The range -/

/-- `__stored_sieves`, up to its last check. -/
def collectStored : List SieveConfig → Except PlaybackError (List (SieveConfig × List String))
  | [] => .ok []
  | config :: rest =>
    if config.stored then
      if config.types = [] then .error (.untyped config.name)
      else (collectStored rest).map ((config, config.types) :: ·)
    else collectStored rest

def storedSieves (registered : List SieveConfig) : Except PlaybackError (List (SieveConfig × List String)) :=
  (collectStored registered).bind fun sieves => if sieves = [] then .error .noSieve else .ok sieves

/-- `__exporters`: those whose files hold particles of the types. -/
def exportersOf (store : Store) (types : List String) : List ExporterConfig :=
  store.exporters.filter fun config =>
    decide (config.exports = .particle) &&
      config.type.all fun type => type.any fun name => decide (name ∈ types)

/-- The range widened to the files of one exporter. -/
def widen (request : PlaybackRequest) (requestedBefore : Int) (range : Int × Int)
    (config : ExporterConfig) : Int × Int :=
  ((effectiveSpan config.period request.rangeMode request.after requestedBefore).bind fun span =>
    span.after.bind fun after => span.before.map fun before =>
      (min range.1 after, max range.2 before)).getD range

def PlaybackRequest.requestedBefore (request : PlaybackRequest) : Int :=
  min (request.before.getD request.now) request.now

/-- The bounds the loop over the sieves begins with. -/
def alignedRange (store : Store) (request : PlaybackRequest) (types : List String) : Int × Int :=
  let requested := (request.after, request.requestedBefore)
  let aligned :=
    if request.exporting ∧ request.rangeMode = .expand then
      (exportersOf store types).foldl (widen request request.requestedBefore) requested
    else requested
  (aligned.1, min aligned.2 request.now)

/-- One turn of the loop. -/
def accepts (messages : List Message) (before : Int) (state : Int × List (SieveConfig × List String))
    (entry : SieveConfig × List String) : Int × List (SieveConfig × List String) :=
  match first messages entry.1 none none with
  | none => state
  | some oldest =>
    let start := max state.1 oldest.timestamp
    if (first messages entry.1 (some start) (some before)).isNone then state
    else (start, state.2 ++ [entry])

/-- The loop over the stored sieves: the start it leaves, and the sieves it keeps. -/
def admitAll (store : Store) (aligned : Int × Int) (stored : List (SieveConfig × List String)) :
    Int × List (SieveConfig × List String) :=
  stored.foldl (accepts store.messages aligned.2) (aligned.1, [])

def rangeOf (store : Store) (request : PlaybackRequest) (stored : List (SieveConfig × List String)) :
    PlaybackRange :=
  let types := stored.flatMap Prod.snd
  let aligned := alignedRange store request types
  let admitted := admitAll store aligned stored
  { requestedAfter := request.after
    requestedBefore := request.requestedBefore
    after := if admitted.2 = [] ∨ aligned.2 < admitted.1 then aligned.2 else admitted.1
    before := aligned.2
    sieves := admitted.2
    exporters := if request.exporting then (exportersOf store types).map ExporterConfig.name else [] }

/-- `__range`. -/
def playbackRange (store : Store) (request : PlaybackRequest) (registered : List SieveConfig) :
    Except PlaybackError PlaybackRange :=
  if request.requestedBefore ≤ request.after then .error .range
  else (storedSieves registered).map (rangeOf store request)

/-! ## 3. What the queries answer -/

/-- The sieve has a stored message in the range. -/
def HasMessage (messages : List Message) (config : SieveConfig) (after before : Int) : Prop :=
  ∃ m ∈ messages, config.filter m = true ∧ after ≤ m.timestamp ∧ m.timestamp < before

instance (messages : List Message) (config : SieveConfig) (after before : Int) :
    Decidable (HasMessage messages config after before) := by
  unfold HasMessage
  infer_instance

variable {config : SieveConfig}

theorem HasMessage.mono {messages : List Message} {after later before : Int}
    (h : HasMessage messages config later before) (hle : after ≤ later) :
    HasMessage messages config after before := by
  obtain ⟨m, hm, hfilter, hafter, hbefore⟩ := h
  exact ⟨m, hm, hfilter, hle.trans hafter, hbefore⟩

theorem mem_sieveMessages {messages : List Message} {after before : Option Int}
    {m : Message} : m ∈ sieveMessages messages config after before ↔
      m ∈ messages ∧ config.filter m = true ∧ (∀ t ∈ after, t ≤ m.timestamp) ∧
        ∀ t ∈ before, m.timestamp < t := by
  simp only [sieveMessages, List.mem_insertionSort, List.mem_filter, Bool.and_eq_true,
    Option.all_eq_true, decide_eq_true_eq, Option.mem_def, and_assoc]

theorem first_isNone {messages : List Message} {after before : Int} :
    (first messages config (some after) (some before)).isNone = true ↔
      ¬ HasMessage messages config after before := by
  have hmem : ∀ m, m ∈ sieveMessages messages config (some after) (some before) ↔
      m ∈ messages ∧ config.filter m = true ∧ after ≤ m.timestamp ∧ m.timestamp < before := by
    intro m
    rw [mem_sieveMessages]
    simp
  rw [first, Option.isNone_iff_eq_none, List.head?_eq_none_iff, List.eq_nil_iff_forall_not_mem]
  simp only [hmem, HasMessage]
  push Not
  rfl

theorem first_none {messages : List Message} (h : first messages config none none = none) :
    ∀ m ∈ messages, config.filter m = false := by
  intro m hm
  by_contra hfilter
  rw [first, List.head?_eq_none_iff, List.eq_nil_iff_forall_not_mem] at h
  exact h m (mem_sieveMessages.mpr ⟨hm, by simpa using hfilter, by simp, by simp⟩)

theorem first_some {messages : List Message} {oldest : Message}
    (h : first messages config none none = some oldest) : (oldest ∈ messages ∧ config.filter oldest = true) ∧
      ∀ m ∈ messages, config.filter m = true → oldest.timestamp ≤ m.timestamp := by
  have hsorted : (sieveMessages messages config none none).Pairwise Message.le :=
    List.pairwise_insertionSort Message.le _
  obtain ⟨rest, hrest⟩ := List.head?_eq_some_iff.mp h
  have hmem : oldest ∈ sieveMessages messages config none none := hrest ▸ List.mem_cons_self
  obtain ⟨hm, hfilter, -, -⟩ := mem_sieveMessages.mp hmem
  refine ⟨⟨hm, hfilter⟩, fun m hmessage hmatch => ?_⟩
  have hother : m ∈ oldest :: rest := hrest ▸ mem_sieveMessages.mpr ⟨hmessage, hmatch, by simp, by simp⟩
  rw [hrest] at hsorted
  rcases List.mem_cons.mp hother with rfl | hlater
  · exact le_rfl
  · rcases (List.pairwise_cons.mp hsorted).1 m hlater with hlt | ⟨heq, -⟩
    · exact hlt.le
    · exact heq.le

/-! ## 4. The loop -/

variable {messages : List Message} {before : Int}

def oldestOf (messages : List Message) (config : SieveConfig) : Int :=
  ((first messages config none none).map Message.timestamp).getD 0

theorem HasMessage.from_oldest {after : Int} (h : HasMessage messages config after before) :
    HasMessage messages config (max after (oldestOf messages config)) before := by
  obtain ⟨m, hm, hfilter, hafter, hbefore⟩ := h
  refine ⟨m, hm, hfilter, max_le hafter ?_, hbefore⟩
  unfold oldestOf
  cases hfirst : first messages config none none with
  | none => exact absurd hfilter (by rw [first_none hfirst m hm]; simp)
  | some oldest => exact (first_some hfirst).2 m hm hfilter

theorem hasMessage_max_iff {after : Int} :
    HasMessage messages config (max after (oldestOf messages config)) before ↔
      HasMessage messages config after before :=
  ⟨fun h => h.mono (le_max_left _ _), HasMessage.from_oldest⟩

/-- **One turn.** A sieve with a message left is kept, and the start moves to its oldest. -/
theorem accepts_eq (after : Int) (kept : List (SieveConfig × List String)) (entry : SieveConfig × List String) :
    accepts messages before (after, kept) entry =
      if HasMessage messages entry.1 after before then (max after (oldestOf messages entry.1), kept ++ [entry])
      else (after, kept) := by
  unfold accepts
  cases hfirst : first messages entry.1 none none with
  | none =>
    have hno : ¬ HasMessage messages entry.1 after before := by
      rintro ⟨m, hm, hfilter, -⟩
      rw [first_none hfirst m hm] at hfilter
      exact absurd hfilter (by simp)
    rw [if_neg hno]
  | some oldest =>
    have holdest : oldest.timestamp = oldestOf messages entry.1 := by
      rw [oldestOf, hfirst]
      rfl
    have hnone : (first messages entry.1 (some (max after oldest.timestamp)) (some before)).isNone = true ↔
        ¬ HasMessage messages entry.1 after before := by
      rw [first_isNone, holdest, hasMessage_max_iff]
    rw [← holdest]
    by_cases hmessage : HasMessage messages entry.1 after before
    · exact (if_neg (not_not.mpr hmessage ∘ hnone.mp)).trans (if_pos hmessage).symm
    · exact (if_pos (hnone.mpr hmessage)).trans (if_neg hmessage).symm

variable (messages before) in
/-- What the loop leaves: the start has only moved on, each sieve that was kept had a message left when its
    turn came, and its oldest is not behind the start. -/
theorem foldl_accepts_kept :
    ∀ (entries : List (SieveConfig × List String)) (after : Int) (kept : List (SieveConfig × List String)),
      ∃ later new, entries.foldl (accepts messages before) (after, kept) = (later, kept ++ new) ∧
        after ≤ later ∧ (∀ entry ∈ new, entry ∈ entries) ∧
        (∀ entry ∈ new, HasMessage messages entry.1 after before ∧ oldestOf messages entry.1 ≤ later) ∧
        (new = [] → later = after ∧ ∀ entry ∈ entries, ¬ HasMessage messages entry.1 after before) ∧
        (new ≠ [] → later < before)
  | [], after, kept => ⟨after, [], by simp, le_rfl, by simp, by simp, by simp, by simp⟩
  | entry :: rest, after, kept => by
    rw [List.foldl_cons, accepts_eq]
    split
    · rename_i hmessage
      obtain ⟨later, new, hfold, hle, hsub, hnew, hempty, hlt⟩ :=
        foldl_accepts_kept rest (max after (oldestOf messages entry.1)) (kept ++ [entry])
      refine ⟨later, entry :: new, ?_, (le_max_left _ _).trans hle, ?_, ?_, by simp, fun _ => ?_⟩
      · rw [hfold, List.append_assoc]
        rfl
      · intro other hother
        rcases List.mem_cons.mp hother with rfl | hrest
        · exact List.mem_cons_self
        · exact List.mem_cons_of_mem _ (hsub other hrest)
      · intro other hother
        rcases List.mem_cons.mp hother with rfl | hrest
        · exact ⟨hmessage, (le_max_right _ _).trans hle⟩
        · exact ⟨(hnew other hrest).1.mono (le_max_left _ _), (hnew other hrest).2⟩
      · by_cases hnone : new = []
        · -- the last sieve that was kept has a message between the start and the end
          rw [(hempty hnone).1]
          obtain ⟨m, -, -, hafter, hbefore⟩ := hmessage.from_oldest
          exact hafter.trans_lt hbefore
        · exact hlt hnone
    · rename_i hmessage
      obtain ⟨later, new, hfold, hle, hsub, hnew, hempty, hlt⟩ := foldl_accepts_kept rest after kept
      refine ⟨later, new, hfold, hle, fun other hother => List.mem_cons_of_mem _ (hsub other hother), hnew,
        fun hnone => ⟨(hempty hnone).1, fun other hother => ?_⟩, hlt⟩
      rcases List.mem_cons.mp hother with rfl | hrest
      · exact hmessage
      · exact (hempty hnone).2 other hrest

/-- The sieves with a message in the range the loop begins with. -/
def candidates (messages : List Message) (before start : Int) (entries : List (SieveConfig × List String)) :
    List (SieveConfig × List String) :=
  entries.filter fun entry => decide (HasMessage messages entry.1 start before)

def latest (messages : List Message) (after : Int) (entry : SieveConfig × List String) : Int :=
  max after (oldestOf messages entry.1)

/-- Where every candidate has a message behind all their oldest ones, the loop keeps just these. -/
theorem foldl_accepts_all {start top : Int} :
    ∀ (entries : List (SieveConfig × List String)) (after : Int) (kept : List (SieveConfig × List String)),
      start ≤ after → after ≤ top → (∀ entry ∈ entries, HasMessage messages entry.1 start before →
        oldestOf messages entry.1 ≤ top ∧ HasMessage messages entry.1 top before) →
      entries.foldl (accepts messages before) (after, kept) =
        ((candidates messages before start entries).foldl (latest messages) after,
          kept ++ candidates messages before start entries)
  | [], after, kept, _, _, _ => by simp [candidates]
  | entry :: rest, after, kept, hstart, htop, hall => by
    have hrest : ∀ other ∈ rest, HasMessage messages other.1 start before →
        oldestOf messages other.1 ≤ top ∧ HasMessage messages other.1 top before :=
      fun other hother => hall other (List.mem_cons_of_mem _ hother)
    rw [List.foldl_cons, accepts_eq]
    by_cases hcandidate : HasMessage messages entry.1 start before
    · obtain ⟨holdest, hlate⟩ := hall entry List.mem_cons_self hcandidate
      have hcons : candidates messages before start (entry :: rest) =
          entry :: candidates messages before start rest := by
        simp [candidates, hcandidate]
      rw [if_pos (hlate.mono htop), hcons,
        foldl_accepts_all rest _ _ (hstart.trans (le_max_left _ _)) (max_le htop holdest) hrest,
        List.append_assoc]
      rfl
    · have hcons : candidates messages before start (entry :: rest) = candidates messages before start rest := by
        simp [candidates, hcandidate]
      rw [if_neg fun h => hcandidate (h.mono hstart), hcons,
        foldl_accepts_all rest after kept hstart htop hrest]

variable (messages) in
theorem exists_latest (start : Int) : ∀ entries : List (SieveConfig × List String),
    ∃ top, start ≤ top ∧ (∀ entry ∈ entries, oldestOf messages entry.1 ≤ top) ∧
      (top = start ∨ ∃ entry ∈ entries, top = max start (oldestOf messages entry.1))
  | [] => ⟨start, le_rfl, by simp, .inl rfl⟩
  | entry :: rest => by
    obtain ⟨top, hstart, hrest, hattained⟩ := exists_latest start rest
    by_cases hle : oldestOf messages entry.1 ≤ top
    · refine ⟨top, hstart, fun other hother => ?_, ?_⟩
      · rcases List.mem_cons.mp hother with rfl | hmem
        · exact hle
        · exact hrest other hmem
      · rcases hattained with heq | ⟨other, hother, heq⟩
        · exact .inl heq
        · exact .inr ⟨other, List.mem_cons_of_mem _ hother, heq⟩
    · have hlt := not_le.mp hle
      refine ⟨oldestOf messages entry.1, hstart.trans hlt.le, fun other hother => ?_,
        .inr ⟨entry, List.mem_cons_self, (max_eq_right (hstart.trans hlt.le)).symm⟩⟩
      rcases List.mem_cons.mp hother with rfl | hmem
      · exact le_rfl
      · exact (hrest other hmem).trans hlt.le

/-- Any two sieves with a message in the range: the one has a message from the other's oldest on. -/
def Together (messages : List Message) (start before : Int) (configs : List SieveConfig) : Prop :=
  ∀ config ∈ configs, HasMessage messages config start before →
    ∀ other ∈ configs, HasMessage messages other start before →
      HasMessage messages config (max start (oldestOf messages other)) before

variable {entries : List (SieveConfig × List String)}

theorem Together.exists_top {start : Int} (h : Together messages start before (entries.map Prod.fst)) :
    ∃ top, start ≤ top ∧ ∀ entry ∈ entries, HasMessage messages entry.1 start before →
      oldestOf messages entry.1 ≤ top ∧ HasMessage messages entry.1 top before := by
  obtain ⟨top, hstart, holdest, hattained⟩ :=
    exists_latest messages start (candidates messages before start entries)
  refine ⟨top, hstart, fun entry hentry hmessage => ⟨holdest entry ?_, ?_⟩⟩
  · exact List.mem_filter.mpr ⟨hentry, decide_eq_true hmessage⟩
  · rcases hattained with rfl | ⟨other, hother, rfl⟩
    · exact hmessage
    · obtain ⟨hmem, hother⟩ := List.mem_filter.mp hother
      exact h entry.1 (List.mem_map_of_mem hentry) hmessage other.1 (List.mem_map_of_mem hmem)
        (of_decide_eq_true hother)

/-- The loop then leaves the same in every order. -/
theorem Together.foldl_perm {start : Int} {entries others : List (SieveConfig × List String)}
    (h : Together messages start before (entries.map Prod.fst)) (hperm : others.Perm entries) :
    (others.foldl (accepts messages before) (start, [])).1 = (entries.foldl (accepts messages before) (start, [])).1 ∧
      (others.foldl (accepts messages before) (start, [])).2.Perm
        (entries.foldl (accepts messages before) (start, [])).2 := by
  obtain ⟨top, hstart, htop⟩ := h.exists_top
  have hcandidates : (candidates messages before start others).Perm (candidates messages before start entries) :=
    hperm.filter _
  rw [foldl_accepts_all entries start [] le_rfl hstart htop,
    foldl_accepts_all others start [] le_rfl hstart fun entry hentry => htop entry (hperm.mem_iff.mp hentry)]
  refine ⟨hcandidates.foldl_eq' (fun one _ two _ after => ?_) start, hcandidates.append_left []⟩
  exact max_right_comm after _ _

theorem Together.kept {start : Int} (h : Together messages start before (entries.map Prod.fst)) :
    ∀ entry ∈ (entries.foldl (accepts messages before) (start, [])).2,
      HasMessage messages entry.1 (entries.foldl (accepts messages before) (start, [])).1 before := by
  obtain ⟨top, hstart, htop⟩ := h.exists_top
  have hbound : ∀ (rest : List (SieveConfig × List String)) (after : Int), after ≤ top →
      (∀ entry ∈ rest, oldestOf messages entry.1 ≤ top) → rest.foldl (latest messages) after ≤ top := by
    intro rest
    induction rest with
    | nil => exact fun after hle _ => hle
    | cons entry rest ih =>
      intro after hle hrest
      exact ih _ (max_le hle (hrest entry List.mem_cons_self))
        fun other hother => hrest other (List.mem_cons_of_mem _ hother)
  rw [foldl_accepts_all entries start [] le_rfl hstart htop]
  intro entry hentry
  have hmem : ∀ other ∈ candidates messages before start entries,
      other ∈ entries ∧ HasMessage messages other.1 start before := fun other hother =>
    ⟨(List.mem_filter.mp hother).1, of_decide_eq_true (List.mem_filter.mp hother).2⟩
  obtain ⟨hentry, hmessage⟩ := hmem entry hentry
  refine (htop entry hentry hmessage).2.mono (hbound _ start hstart fun other hother => ?_)
  exact (htop other (hmem other hother).1 (hmem other hother).2).1

theorem exists_front {α : Type} {a : α} {l : List α} (h : a ∈ l) : ∃ rest, (a :: rest).Perm l := by
  obtain ⟨front, back, rfl⟩ := List.append_of_mem h
  exact ⟨front ++ back, List.perm_middle.symm⟩

/-- Two orders in which the loop keeps different sieves. -/
theorem exists_orders {start : Int} (h : ¬ Together messages start before (entries.map Prod.fst)) :
    ∃ entry ∈ entries, HasMessage messages entry.1 start before ∧ ∃ one two : List (SieveConfig × List String),
      one.Perm entries ∧ two.Perm entries ∧ entry ∈ (one.foldl (accepts messages before) (start, [])).2 ∧
        entry ∉ (two.foldl (accepts messages before) (start, [])).2 := by
  unfold Together at h
  push Not at h
  obtain ⟨config, hconfig, hmessage, other, hother, hothers, hlate⟩ := h
  obtain ⟨entry, hentry, rfl⟩ := List.mem_map.mp hconfig
  obtain ⟨second, hsecond, rfl⟩ := List.mem_map.mp hother
  obtain ⟨one, hone⟩ := exists_front hentry
  obtain ⟨two, htwo⟩ := exists_front hsecond
  refine ⟨entry, hentry, hmessage, entry :: one, second :: two, hone, htwo, ?_, ?_⟩
  · -- first in its turn it is kept
    rw [List.foldl_cons, accepts_eq, if_pos hmessage]
    obtain ⟨later, new, hfold, -⟩ := foldl_accepts_kept messages before one
      (max start (oldestOf messages entry.1)) ([] ++ [entry])
    rw [hfold]
    exact List.mem_append_left _ (List.mem_append_right _ (List.mem_singleton_self _))
  · -- behind the other it has no message left
    rw [List.foldl_cons, accepts_eq, if_pos hothers]
    obtain ⟨later, new, hfold, -, -, hnew, -⟩ := foldl_accepts_kept messages before two
      (max start (oldestOf messages second.1)) ([] ++ [second])
    rw [hfold]
    intro hmem
    rcases List.mem_append.mp hmem with hfirst | hlater
    · rw [List.nil_append, List.mem_singleton] at hfirst
      subst hfirst
      exact hlate hmessage.from_oldest
    · exact hlate (hnew entry hlater).1

/-! ## 5. The whole range -/

/-- Every stored sieve declares a type. -/
def Typed (registered : List SieveConfig) : Prop :=
  ∀ config ∈ registered, config.stored = true → config.types ≠ []

def storedEntries (registered : List SieveConfig) : List (SieveConfig × List String) :=
  (registered.filter SieveConfig.stored).map fun config => (config, config.types)

theorem collectStored_typed : ∀ {registered : List SieveConfig}, Typed registered →
    collectStored registered = .ok (storedEntries registered)
  | [], _ => rfl
  | config :: rest, h => by
    have hrest : collectStored rest = .ok (storedEntries rest) :=
      collectStored_typed fun c hc => h c (List.mem_cons_of_mem _ hc)
    unfold collectStored
    by_cases hstored : config.stored = true
    · rw [if_pos hstored, if_neg (h config List.mem_cons_self hstored), hrest]
      simp [storedEntries, hstored, Except.map]
    · rw [if_neg hstored, hrest]
      simp [storedEntries, hstored]

theorem typed_of_collectStored : ∀ {registered : List SieveConfig} {stored : List (SieveConfig × List String)},
    collectStored registered = .ok stored → Typed registered
  | [], _, _ => fun c hc => absurd hc List.not_mem_nil
  | config :: rest, stored, h => by
    have hcons : Typed rest → (config.stored = true → config.types ≠ []) → Typed (config :: rest) := by
      intro hrest hconfig c hc
      rcases List.mem_cons.mp hc with rfl | hc
      · exact hconfig
      · exact hrest c hc
    unfold collectStored at h
    by_cases hstored : config.stored = true
    · rw [if_pos hstored] at h
      by_cases htypes : config.types = []
      · rw [if_pos htypes] at h
        cases h
      · rw [if_neg htypes] at h
        cases hrest : collectStored rest with
        | error e =>
          rw [hrest] at h
          cases h
        | ok others => exact hcons (typed_of_collectStored hrest) fun _ => htypes
    · rw [if_neg hstored] at h
      exact hcons (typed_of_collectStored h) fun hyes => absurd hyes hstored

theorem playbackRange_ok_iff {store : Store} {request : PlaybackRequest} {registered : List SieveConfig}
    {range : PlaybackRange} : playbackRange store request registered = .ok range ↔
      request.after < request.requestedBefore ∧ Typed registered ∧ storedEntries registered ≠ [] ∧
        range = rangeOf store request (storedEntries registered) := by
  unfold playbackRange storedSieves
  by_cases horder : request.requestedBefore ≤ request.after
  · simp [horder, not_lt.mpr horder]
  · rw [if_neg horder]
    cases hcollect : collectStored registered with
    | error e =>
      have hnot : ¬ Typed registered := fun h => by
        rw [collectStored_typed h] at hcollect
        cases hcollect
      simp [Except.bind, Except.map, hnot]
    | ok stored =>
      have htyped := typed_of_collectStored hcollect
      rw [collectStored_typed htyped, Except.ok.injEq] at hcollect
      subst hcollect
      by_cases hempty : storedEntries registered = []
      · simp [Except.bind, Except.map, hempty]
      · simp [Except.bind, Except.map, hempty, not_le.mp horder, htyped, @eq_comm _ range]

/-- Which exporters are affected depends on the set of types only. -/
theorem alignedRange_congr {store : Store} {request : PlaybackRequest} {types others : List String}
    (h : ∀ type, type ∈ types ↔ type ∈ others) :
    alignedRange store request types = alignedRange store request others := by
  have hexporters : exportersOf store types = exportersOf store others := by
    unfold exportersOf
    simp only [h]
  unfold alignedRange
  rw [hexporters]

section Range

variable {store : Store} {request : PlaybackRequest} {registered : List SieveConfig}

/-- The range the loop begins with. -/
def startRange (store : Store) (request : PlaybackRequest) (registered : List SieveConfig) : Int × Int :=
  alignedRange store request ((storedEntries registered).flatMap Prod.snd)

variable {others : List SieveConfig}

theorem storedEntries_perm (hperm : others.Perm registered) :
    (storedEntries others).Perm (storedEntries registered) := (hperm.filter _).map _

theorem startRange_perm (hperm : others.Perm registered) :
    startRange store request others = startRange store request registered :=
  alignedRange_congr fun _ => ((storedEntries_perm hperm).flatMap_right Prod.snd).mem_iff

theorem playbackRange_perm (hperm : others.Perm registered) {range : PlaybackRange}
    (h : playbackRange store request registered = .ok range) :
    playbackRange store request others = .ok (rangeOf store request (storedEntries others)) := by
  obtain ⟨horder, htyped, hstored, -⟩ := playbackRange_ok_iff.mp h
  refine playbackRange_ok_iff.mpr ⟨horder, fun c hc => htyped c (hperm.mem_iff.mp hc), ?_, rfl⟩
  intro hempty
  have hnil := storedEntries_perm hperm
  rw [hempty, List.nil_perm] at hnil
  exact hstored hnil

/-- A range is not empty exactly if a sieve was kept, and its start is then where the loop left it. -/
theorem rangeOf_lt_iff (stored : List (SieveConfig × List String)) :
    (rangeOf store request stored).after < (rangeOf store request stored).before ↔
      (rangeOf store request stored).sieves ≠ [] := by
  let aligned := alignedRange store request (stored.flatMap Prod.snd)
  obtain ⟨later, new, hfold, -, -, -, -, hlt⟩ := foldl_accepts_kept store.messages aligned.2 stored aligned.1 []
  have hadmitted : admitAll store aligned stored = (later, new) := hfold
  show (if (admitAll store aligned stored).2 = [] ∨ aligned.2 < (admitAll store aligned stored).1 then aligned.2
    else (admitAll store aligned stored).1) < aligned.2 ↔ (admitAll store aligned stored).2 ≠ []
  rw [hadmitted]
  by_cases hnew : new = []
  · simp [hnew]
  · simp [hnew, hlt hnew, not_lt.mpr (hlt hnew).le]

/-- Two orders for which the loop begins and ends with the same. -/
theorem rangeOf_same {stored others : List (SieveConfig × List String)}
    (haligned : alignedRange store request (others.flatMap Prod.snd) =
      alignedRange store request (stored.flatMap Prod.snd))
    (hafter : (admitAll store (alignedRange store request (stored.flatMap Prod.snd)) others).1 =
      (admitAll store (alignedRange store request (stored.flatMap Prod.snd)) stored).1)
    (hsieves : (admitAll store (alignedRange store request (stored.flatMap Prod.snd)) others).2.Perm
      (admitAll store (alignedRange store request (stored.flatMap Prod.snd)) stored).2) :
    (rangeOf store request others).after = (rangeOf store request stored).after ∧
      (rangeOf store request others).before = (rangeOf store request stored).before ∧
        (rangeOf store request others).sieves.Perm (rangeOf store request stored).sieves := by
  unfold rangeOf
  dsimp only
  rw [haligned]
  refine ⟨?_, rfl, hsieves⟩
  rw [hafter]
  have hnil : (admitAll store (alignedRange store request (stored.flatMap Prod.snd)) others).2 = [] ↔
      (admitAll store (alignedRange store request (stored.flatMap Prod.snd)) stored).2 = [] :=
    ⟨fun heq => List.nil_perm.mp (heq ▸ hsieves), fun heq => List.perm_nil.mp (heq ▸ hsieves)⟩
  simp only [hnil]

theorem rangeOf_after {stored : List (SieveConfig × List String)}
    (h : (rangeOf store request stored).sieves ≠ []) : (rangeOf store request stored).after =
      (admitAll store (alignedRange store request (stored.flatMap Prod.snd)) stored).1 := by
  let aligned := alignedRange store request (stored.flatMap Prod.snd)
  obtain ⟨later, new, hfold, -, -, -, -, hlt⟩ := foldl_accepts_kept store.messages aligned.2 stored aligned.1 []
  have hadmitted : admitAll store aligned stored = (later, new) := hfold
  have hnew : new ≠ [] := by
    have hsieves : (admitAll store aligned stored).2 ≠ [] := h
    rwa [hadmitted] at hsieves
  show (if (admitAll store aligned stored).2 = [] ∨ aligned.2 < (admitAll store aligned stored).1 then aligned.2
    else (admitAll store aligned stored).1) = (admitAll store aligned stored).1
  rw [hadmitted]
  exact if_neg (by simp [hnew, (hlt hnew).le])

theorem storedEntries_map_fst (registered : List SieveConfig) :
    (storedEntries registered).map Prod.fst = registered.filter SieveConfig.stored := by
  simp [storedEntries, Function.comp_def]

/-- Every order of the stored sieves is one that they can be registered in. -/
theorem exists_registered {entries : List (SieveConfig × List String)}
    (hperm : entries.Perm (storedEntries registered)) :
    ∃ others : List SieveConfig, others.Perm registered ∧ storedEntries others = entries := by
  have hentry : ∀ entry ∈ entries, entry.1.stored = true ∧ (entry.1, entry.1.types) = entry := by
    intro entry hmem
    obtain ⟨config, hconfig, rfl⟩ := List.mem_map.mp (hperm.mem_iff.mp hmem)
    exact ⟨(List.mem_filter.mp hconfig).2, rfl⟩
  refine ⟨entries.map Prod.fst ++ registered.filter fun config => !config.stored, ?_, ?_⟩
  · have hstored : (entries.map Prod.fst).Perm (registered.filter SieveConfig.stored) := by
      rw [← storedEntries_map_fst]
      exact hperm.map Prod.fst
    exact (hstored.append_right _).trans (List.filter_append_perm SieveConfig.stored registered)
  · have hothers : ((registered.filter fun config => !config.stored).filter SieveConfig.stored) = [] := by
      simp [List.filter_filter]
    have hall : (entries.map Prod.fst).filter SieveConfig.stored = entries.map Prod.fst := by
      refine List.filter_eq_self.mpr fun config hconfig => ?_
      obtain ⟨entry, hmem, rfl⟩ := List.mem_map.mp hconfig
      exact (hentry entry hmem).1
    rw [storedEntries, List.filter_append, hothers, hall, List.append_nil, List.map_map]
    exact (List.map_congr_left fun entry hmem => (hentry entry hmem).2).trans (List.map_id entries)

/-! ## 6. When a playback can rebuild what it deletes -/

/-- A stored particle, by what the deletion looks at. -/
structure Particle where
  type : String
  timestamp : Int

/-- What `__play` deletes. -/
def deleted (range : PlaybackRange) (particles : List Particle) : List Particle :=
  particles.filter fun p => decide (p.type ∈ range.sieves.flatMap Prod.snd ∧ range.after ≤ p.timestamp ∧
    p.timestamp < range.before)

/-- The sieves kept have messages in the range, and it begins at none of them too early. -/
structure Sound (store : Store) (registered : List SieveConfig) (range : PlaybackRange) : Prop where
  kept : ∀ entry ∈ range.sieves, HasMessage store.messages entry.1 range.after range.before
  oldest : ∀ entry ∈ range.sieves, ∀ oldest,
    first store.messages entry.1 none none = some oldest → oldest.timestamp ≤ range.after
  deleted : ∀ (particles : List Particle), ∀ p ∈ deleted range particles,
    ∃ config ∈ registered, config.stored = true ∧ p.type ∈ config.types ∧
      HasMessage store.messages config range.after range.before

/-- A range that is not empty is sound, and the same in whatever order the sieves are registered. -/
def Rebuildable (store : Store) (request : PlaybackRequest) (registered : List SieveConfig) : Prop :=
  ∀ range, playbackRange store request registered = .ok range → range.after < range.before →
    Sound store registered range ∧ ∀ others : List SieveConfig, others.Perm registered →
      ∃ other, playbackRange store request others = .ok other ∧ other.after = range.after ∧
        other.before = range.before ∧ other.sieves.Perm range.sieves

/-- In a playback that is not refused, any two stored sieves with a message in the widened range have one
    from each other's oldest on. -/
def SievesTogether (store : Store) (request : PlaybackRequest) (registered : List SieveConfig) : Prop :=
  request.after < request.requestedBefore → Typed registered →
    Together store.messages (startRange store request registered).1 (startRange store request registered).2
      (registered.filter SieveConfig.stored)

/-- What is kept has its oldest message before the range, in any case. -/
theorem oldest_le {range : PlaybackRange} (h : playbackRange store request registered = .ok range)
    (hrange : range.after < range.before) : ∀ entry ∈ range.sieves, ∀ oldest,
      first store.messages entry.1 none none = some oldest → oldest.timestamp ≤ range.after := by
  obtain ⟨-, -, -, rfl⟩ := playbackRange_ok_iff.mp h
  rw [rangeOf_after ((rangeOf_lt_iff _).mp hrange)]
  obtain ⟨later, new, hfold, -, -, hnew, -⟩ :=
    foldl_accepts_kept store.messages (startRange store request registered).2
      (storedEntries registered) (startRange store request registered).1 []
  have hadmitted : admitAll store (startRange store request registered) (storedEntries registered) =
      (later, new) := hfold
  intro entry hentry oldest holdest
  have hentry : entry ∈ (admitAll store (startRange store request registered) (storedEntries registered)).2 :=
    hentry
  show oldest.timestamp ≤ (admitAll store (startRange store request registered) (storedEntries registered)).1
  rw [hadmitted] at hentry ⊢
  have hle := (hnew entry hentry).2
  rwa [oldestOf, holdest] at hle

theorem rebuildable_of_together (h : SievesTogether store request registered) :
    Rebuildable store request registered := by
  intro range hok hrange
  obtain ⟨horder, htyped, -, hrangeOf⟩ := playbackRange_ok_iff.mp hok
  have htogether := h horder htyped
  rw [← storedEntries_map_fst] at htogether
  have hkept : ∀ entry ∈ range.sieves, HasMessage store.messages entry.1 range.after range.before := by
    subst hrangeOf
    rw [rangeOf_after ((rangeOf_lt_iff _).mp hrange)]
    exact htogether.kept
  refine ⟨⟨hkept, oldest_le hok hrange, fun particles p hp => ?_⟩, fun others hperm => ?_⟩
  · obtain ⟨entry, hentry, htype⟩ := List.mem_flatMap.mp (of_decide_eq_true (List.mem_filter.mp hp).2).1
    have hstored : entry ∈ storedEntries registered := by
      subst hrangeOf
      obtain ⟨later, new, hfold, -, hsub, -⟩ :=
        foldl_accepts_kept store.messages (startRange store request registered).2
          (storedEntries registered) (startRange store request registered).1 []
      have hentry : entry ∈ (List.foldl (accepts store.messages (startRange store request registered).2)
          ((startRange store request registered).1, []) (storedEntries registered)).2 := hentry
      rw [hfold] at hentry
      exact hsub entry hentry
    obtain ⟨config, hconfig, rfl⟩ := List.mem_map.mp hstored
    obtain ⟨hmem, hflag⟩ := List.mem_filter.mp hconfig
    exact ⟨config, hmem, hflag, htype, hkept _ hentry⟩
  · have hothers := playbackRange_perm hperm hok
    have hfold := htogether.foldl_perm (storedEntries_perm hperm)
    have hstart : startRange store request others = startRange store request registered := startRange_perm hperm
    subst hrangeOf
    refine ⟨_, hothers, rangeOf_same ?_ hfold.1 hfold.2⟩
    exact hstart

/-- **When the range can be rebuilt**, for every list of sieves, message store and request. -/
theorem range_rebuildable_iff (store : Store) (request : PlaybackRequest) (registered : List SieveConfig) :
    Rebuildable store request registered ↔ SievesTogether store request registered := by
  refine ⟨fun h horder htyped => ?_, rebuildable_of_together⟩
  by_contra htogether
  rw [← storedEntries_map_fst] at htogether
  obtain ⟨entry, hentry, hmessage, one, two, hone, htwo, hin, hout⟩ := exists_orders htogether
  have hok : playbackRange store request registered =
      .ok (rangeOf store request (storedEntries registered)) :=
    playbackRange_ok_iff.mpr ⟨horder, htyped, List.ne_nil_of_mem hentry, rfl⟩
  have hrange : (rangeOf store request (storedEntries registered)).after <
      (rangeOf store request (storedEntries registered)).before := by
    refine (rangeOf_lt_iff _).mpr fun hempty => ?_
    obtain ⟨later, new, hfold, -, -, -, hnone, -⟩ :=
      foldl_accepts_kept store.messages (startRange store request registered).2
        (storedEntries registered) (startRange store request registered).1 []
    have hempty : (List.foldl (accepts store.messages (startRange store request registered).2)
        ((startRange store request registered).1, []) (storedEntries registered)).2 = [] := hempty
    rw [hfold] at hempty
    exact (hnone hempty).2 entry hentry hmessage
  -- what each of the two orders keeps is what is kept here
  have hsieves : ∀ {entries : List (SieveConfig × List String)}, entries.Perm (storedEntries registered) →
      (entries.foldl (accepts store.messages (startRange store request registered).2)
        ((startRange store request registered).1, [])).2.Perm
          (rangeOf store request (storedEntries registered)).sieves := by
    intro entries hentries
    obtain ⟨others, hperm, rfl⟩ := exists_registered hentries
    obtain ⟨other, hother, -, -, hkept⟩ := (h _ hok hrange).2 others hperm
    obtain ⟨-, -, -, rfl⟩ := playbackRange_ok_iff.mp hother
    rw [← startRange_perm hperm]
    exact hkept
  exact hout ((hsieves htwo).mem_iff.mpr ((hsieves hone).mem_iff.mp hin))

end Range

/-- A sieve of one connection. -/
def connectionSieve (connection : String) : SieveConfig :=
  ⟨connection, true, [connection], fun m => decide (m.connection = some connection)⟩

/-- **The sieve that is left behind.** `a` has its only message at 0, and is kept; then `b`, whose oldest
    message is at 10, moves the start there, and the playback deletes `a`'s particles from 10 on. -/
theorem early_sieve_kept :
    ¬ ∀ (store : Store) (request : PlaybackRequest) (registered : List SieveConfig),
      Rebuildable store request registered := by
  intro h
  have hsound := (h ⟨[⟨0, 1, some "a", []⟩, ⟨10, 2, some "b", []⟩], []⟩ ⟨0, some 20, 30, false, .exact⟩
    [connectionSieve "a", connectionSieve "b"] _ rfl (by decide)).1
  exact absurd (hsound.kept (connectionSieve "a", ["a"]) List.mem_cons_self) (by decide)

end Ceres.Component.Playback
