/-
  File:      Ceres/Connection/Framing.lean
  Subject:   FRAMES AND HOW THEIR BYTES ARRIVE (`ceres/connection/splitter.py`, `ceres/connection/buffer.py`).

  A splitter finds the places where a pattern matches the buffer; a drain takes what is in front of the last of
  them. What is left may hold the beginning of a match that later bytes complete.

  * `splitByLine`, `splitByRegex` -- the splitters, for literal patterns;
  * `frames`, `stopOf`, `framed` -- the bytes of a drain; **`drain_framed`** -- the buffer drains to them;
  * **`framed_append`** -- a stream in two parts, the first of them drained before the second comes;
  * `feed` -- a run of pushes and drains; **`framing_independent`** -- if the last push is drained, the frames
    and the rest are those of the whole stream; `undrained_line` -- otherwise they need not be.
-/
import Ceres.Connection.Buffer
import Ceres.Library.Occurrences

namespace Ceres.Connection

open Ceres.Library

/-! ## 1. Splitters -/

/-- `SplitByRegexMode`: the match starts a frame ("prefix"), ends one ("suffix"), or is one ("infix"). -/
inductive SplitByRegexMode where
  | starts | ends | between

/-- The end indices of a match of so many bytes at a position. -/
def SplitByRegexMode.cuts (length position : Nat) : SplitByRegexMode → List Nat
  | starts => [position]
  | ends => [position + length]
  | between => [position, position + length]

/-- The end indices that a splitter yields for some bytes. -/
def SplitByRegexMode.splits (mode : SplitByRegexMode) (pattern store : List UInt8) : List Nat :=
  (occurrences pattern store).flatMap fun position => mode.cuts pattern.length position

/-- `SplitByRegex.split`, for a pattern that matches one word. -/
def splitByRegex (pattern : List UInt8) (mode : SplitByRegexMode) (buffer : Buffer) : List Int :=
  (mode.splits pattern buffer.store).map Nat.cast

/-- `SplitByLine.split`. -/
def splitByLine (buffer : Buffer) : List Int := splitByRegex [10] .ends buffer

/-! ## 2. The bytes of a drain -/

/-- The pieces between some positions, from a start; a position that is not behind the last piece is left out. -/
def frames (store : List UInt8) : Nat → List Nat → List (List UInt8)
  | _, [] => []
  | start, stop :: rest =>
    if stop ≤ start then frames store start rest else (store.take stop).drop start :: frames store stop rest

/-- The end of the last piece. -/
def stopOf : Nat → List Nat → Nat
  | start, [] => start
  | start, stop :: rest => if stop ≤ start then stopOf start rest else stopOf stop rest

/-- The frames of some bytes, and the bytes left. -/
def framed (pattern : List UInt8) (mode : SplitByRegexMode) (store : List UInt8) :
    List (List UInt8) × List UInt8 :=
  (frames store 0 (mode.splits pattern store), store.drop (stopOf 0 (mode.splits pattern store)))

theorem Ledger.timestampAt_isSome {l : Ledger} (hI : l.Inv) {i : Nat} (hi : i < l.buffer.size) :
    (l.buffer.timestampAt i).isSome = true := by
  have hbisect := Buffer.bisectRight_spread l.buffer.entries l.buffer.startPosition i hI.ascending
  have hlength := Buffer.spread_length _ _ hI.ascending
  rw [hI.ends] at hlength
  have hindex : l.buffer.getEntryIndexAt (i : Int) =
      some (Buffer.bisectRight l.buffer.entries (l.buffer.startPosition + i)) := by
    unfold Buffer.getEntryIndexAt
    rw [if_neg (by omega), Int.toNat_natCast]
  unfold Buffer.timestampAt Buffer.getEntryAt
  rw [hindex, Option.bind_some, hbisect, List.getElem?_eq_getElem (by omega)]
  rfl

/-- The views of a buffer, as pieces of its bytes. -/
theorem splitFrom_frames {l : Ledger} (hI : l.Inv) (linearize : Bool) :
    ∀ (cuts : List Nat) (previous : Option Buffer.VirtualChunk), (∀ cut ∈ cuts, cut ≤ l.buffer.size) →
      (l.buffer.splitFrom linearize previous (cuts.map Nat.cast)).map (fun v => (l.buffer.resolve v).data) =
          frames l.buffer.store ((previous.map (·.stop)).getD 0) cuts ∧
        (((l.buffer.splitFrom linearize previous (cuts.map Nat.cast)).getLast?.or previous).map (·.stop)).getD 0 =
          stopOf ((previous.map (·.stop)).getD 0) cuts
  | [], previous, _ => ⟨rfl, by simp [Buffer.splitFrom, stopOf]⟩
  | cut :: rest, previous, h => by
    obtain ⟨hcut, hrest⟩ := List.forall_mem_cons.mp h
    rw [List.map_cons, Buffer.splitFrom, frames, stopOf]
    by_cases hback : cut ≤ (previous.map (·.stop)).getD 0
    · rw [if_pos hback, if_pos hback]
      cases htime : l.buffer.timestampAt ((cut : Int) - 1) with
      | none => exact splitFrom_frames hI linearize rest previous hrest
      | some t =>
        dsimp only
        rw [if_pos (by exact_mod_cast hback)]
        exact splitFrom_frames hI linearize rest previous hrest
    · have hpositive : 0 < cut := by omega
      have hlast : ((cut : Int) - 1) = ((cut - 1 : Nat) : Int) := by omega
      obtain ⟨t, ht⟩ := Option.isSome_iff_exists.mp (Ledger.timestampAt_isSome hI (show cut - 1 < l.buffer.size by omega))
      rw [hlast, ht]
      dsimp only
      rw [if_neg (by exact_mod_cast hback), if_neg hback, if_neg hback]
      obtain ⟨hframes, hstop⟩ := splitFrom_frames hI linearize rest
        (some ⟨(previous.map (·.stop)).getD 0, (cut : Int).toNat, Buffer.linearized linearize previous t⟩) hrest
      simp only [Option.map_some, Option.getD_some, Int.toNat_natCast] at hframes hstop ⊢
      refine ⟨?_, ?_⟩
      · rw [List.map_cons, hframes]
        simp [Buffer.resolve]
      · rw [← hstop, List.getLast?_cons]
        cases (l.buffer.splitFrom linearize _ (rest.map Nat.cast)).getLast? <;> rfl

theorem splits_le {pattern : List UInt8} (hpattern : pattern ≠ []) (mode : SplitByRegexMode) {store : List UInt8} :
    ∀ cut ∈ mode.splits pattern store, cut ≤ store.length := by
  intro cut hcut
  obtain ⟨position, hposition, hcut⟩ := List.mem_flatMap.mp hcut
  have hle := occurrences_le hpattern hposition
  cases mode with
  | starts =>
    obtain rfl := List.mem_singleton.mp hcut
    omega
  | ends =>
    obtain rfl := List.mem_singleton.mp hcut
    exact hle
  | between =>
    rcases List.mem_cons.mp hcut with rfl | hcut
    · omega
    · obtain rfl := List.mem_singleton.mp hcut
      exact hle

/-- **A drain** takes the frames and leaves the rest. -/
theorem drain_framed {l : Ledger} (hI : l.Inv) {pattern : List UInt8} (hpattern : pattern ≠ [])
    (mode : SplitByRegexMode) (linearize : Bool) :
    (l.buffer.drain (splitByRegex pattern mode l.buffer) linearize).1.map Chunk.data =
        (framed pattern mode l.buffer.store).1 ∧
      (l.buffer.drain (splitByRegex pattern mode l.buffer) linearize).2.store =
        (framed pattern mode l.buffer.store).2 := by
  have hle : ∀ cut ∈ mode.splits pattern l.buffer.store, cut ≤ l.buffer.store.length := splits_le hpattern mode
  obtain ⟨hframes, hstop⟩ := splitFrom_frames hI linearize _ none hle
  simp only [Option.map_none, Option.getD_none, Option.or_none] at hframes hstop
  unfold Buffer.drain Buffer.split splitByRegex framed
  dsimp only
  cases hlast : (l.buffer.splitFrom linearize none ((mode.splits pattern l.buffer.store).map Nat.cast)).getLast? with
  | none =>
    rw [hlast] at hstop
    refine ⟨by rw [List.map_map]; exact hframes, ?_⟩
    show l.buffer.store = _
    rw [← hstop]
    rfl
  | some view =>
    rw [hlast] at hstop
    refine ⟨by rw [List.map_map]; exact hframes, ?_⟩
    obtain ⟨stop, hsize, -, -, hview⟩ := Ledger.splitFrom_data l.buffer linearize _ none (Nat.zero_le _)
    obtain ⟨rfl, hpositive⟩ := hview view hlast
    have hne : l.buffer.store ≠ [] := by
      rw [← List.length_pos_iff]
      exact hpositive.trans_le hsize
    obtain ⟨t, hpop⟩ := Ledger.pop_spec hI (show (0 : Int) < view.stop by exact_mod_cast hpositive) hne
    dsimp only
    rw [hpop, ← hstop]
    show l.buffer.store.drop (min (view.stop : Int).toNat l.buffer.size) = l.buffer.store.drop view.stop
    rw [Int.toNat_natCast, Nat.min_eq_left hsize]

/-! ## 3. Streams in two parts -/

theorem frames_append (store : List UInt8) : ∀ (cuts later : List Nat) (start : Nat),
    frames store start (cuts ++ later) = frames store start cuts ++ frames store (stopOf start cuts) later
  | [], _, _ => rfl
  | cut :: rest, later, start => by
    rw [List.cons_append, frames, frames, stopOf]
    split
    · exact frames_append store rest later start
    · rw [frames_append store rest later cut, List.cons_append]

theorem stopOf_append : ∀ (cuts later : List Nat) (start : Nat),
    stopOf start (cuts ++ later) = stopOf (stopOf start cuts) later
  | [], _, _ => rfl
  | cut :: rest, later, start => by
    rw [List.cons_append, stopOf, stopOf]
    split
    · exact stopOf_append rest later start
    · exact stopOf_append rest later cut

theorem frames_front (store more : List UInt8) : ∀ (cuts : List Nat) (start : Nat),
    (∀ cut ∈ cuts, cut ≤ store.length) → frames (store ++ more) start cuts = frames store start cuts
  | [], _, _ => rfl
  | cut :: rest, start, h => by
    obtain ⟨hcut, hrest⟩ := List.forall_mem_cons.mp h
    rw [frames, frames, frames_front store more rest start hrest, frames_front store more rest cut hrest,
      List.take_append_of_le_length hcut]

theorem frames_shift (store : List UInt8) (n : Nat) : ∀ (cuts : List Nat) (start : Nat),
    frames store (n + start) (cuts.map (n + ·)) = frames (store.drop n) start cuts
  | [], _ => rfl
  | cut :: rest, start => by
    have hpiece : (store.take (n + cut)).drop (n + start) = ((store.drop n).take cut).drop start := by
      rw [← List.drop_drop, List.drop_take, Nat.add_sub_cancel_left]
    rw [List.map_cons, frames, frames, frames_shift store n rest start, frames_shift store n rest cut, hpiece]
    simp only [Nat.add_le_add_iff_left]

theorem stopOf_shift (n : Nat) : ∀ (cuts : List Nat) (start : Nat),
    stopOf (n + start) (cuts.map (n + ·)) = n + stopOf start cuts
  | [], _ => rfl
  | cut :: rest, start => by
    rw [List.map_cons, stopOf, stopOf, stopOf_shift n rest start, stopOf_shift n rest cut]
    simp only [Nat.add_le_add_iff_left, apply_ite (n + ·)]

theorem stopOf_last : ∀ (cuts : List Nat) (start : Nat), (start :: cuts).Pairwise (· ≤ ·) →
    stopOf start cuts = (cuts.getLast?).getD start
  | [], _, _ => rfl
  | cut :: rest, start, h => by
    obtain ⟨hstart, hrest⟩ := List.pairwise_cons.mp h
    rw [stopOf, List.getLast?_cons, Option.getD_some]
    split
    · rename_i hle
      obtain rfl : cut = start := le_antisymm hle (hstart cut List.mem_cons_self)
      exact stopOf_last rest cut hrest
    · exact stopOf_last rest cut hrest

/-- How much of the last match a drain takes. -/
def SplitByRegexMode.taken (length : Nat) : SplitByRegexMode → Nat
  | starts => 0
  | ends | between => length

section Modes

variable {pattern : List UInt8} (hpattern : pattern ≠ []) (mode : SplitByRegexMode)

theorem cuts_shift (length n : Nat) (positions : List Nat) :
    ((positions.map (n + ·)).flatMap fun position => mode.cuts length position) =
      (positions.flatMap fun position => mode.cuts length position).map (n + ·) := by
  rw [List.flatMap_map, List.map_flatMap]
  congr 1
  funext position
  cases mode <;> simp [SplitByRegexMode.cuts, add_assoc]

include hpattern

theorem stopOf_splits {store : List UInt8} {front : List Nat} {last : Nat}
    (h : occurrences pattern store = front ++ [last]) :
    stopOf 0 (mode.splits pattern store) = last + mode.taken pattern.length := by
  have hapart := (occurrences_spec hpattern store).2
  have hsorted : (0 :: mode.splits pattern store).Pairwise (· ≤ ·) := by
    refine List.pairwise_cons.mpr ⟨fun _ _ => Nat.zero_le _, ?_⟩
    unfold SplitByRegexMode.splits
    refine List.pairwise_flatMap.mpr ⟨fun position _ => ?_, hapart.imp fun hle => ?_⟩
    · cases mode <;> simp [SplitByRegexMode.cuts]
    · intro cut hcut cut' hcut'
      cases mode <;> simp only [SplitByRegexMode.cuts, List.mem_cons, List.not_mem_nil, or_false] at hcut hcut' <;> omega
  rw [stopOf_last _ _ hsorted, SplitByRegexMode.splits, h, List.flatMap_append]
  cases mode <;> simp [SplitByRegexMode.cuts, SplitByRegexMode.taken]

/-- The positions in what a drain leaves and the bytes behind it. -/
theorem splits_rest {store : List UInt8} {front : List Nat} {last : Nat}
    (h : occurrences pattern store = front ++ [last]) (more : List UInt8) :
    ∃ cuts, mode.splits pattern (store ++ more) =
        mode.splits pattern store ++ cuts.map (last + mode.taken pattern.length + ·) ∧
      ∀ text, frames text 0 (mode.splits pattern (store.drop (last + mode.taken pattern.length) ++ more)) =
          frames text 0 cuts ∧
        stopOf 0 (mode.splits pattern (store.drop (last + mode.taken pattern.length) ++ more)) = stopOf 0 cuts := by
  have hend : endOf pattern (occurrences pattern store) = last + pattern.length := by
    rw [h]
    simp [endOf]
  have happend : mode.splits pattern (store ++ more) = mode.splits pattern store ++
      (mode.splits pattern (store.drop (last + pattern.length) ++ more)).map (last + pattern.length + ·) := by
    unfold SplitByRegexMode.splits
    rw [occurrences_append hpattern more store, hend, List.flatMap_append, cuts_shift]
  cases mode with
  | ends | between => exact ⟨_, happend, fun text => ⟨rfl, rfl⟩⟩
  | starts =>
    -- the rest begins with the last match
    have hmatch : pattern <+: store.drop last := (occurrences_spec hpattern store).1 last (by rw [h]; simp)
    obtain ⟨behind, hbehind⟩ := hmatch
    have hdrop : store.drop (last + pattern.length) = behind := by
      rw [← List.drop_drop, ← hbehind, List.drop_left]
    have hrest : SplitByRegexMode.starts.splits pattern (store.drop last ++ more) =
        0 :: (SplitByRegexMode.starts.splits pattern (behind ++ more)).map (pattern.length + ·) := by
      unfold SplitByRegexMode.splits
      rw [← hbehind, List.append_assoc, occurrences_word_append hpattern, List.flatMap_cons, cuts_shift]
      rfl
    refine ⟨(SplitByRegexMode.starts.splits pattern (behind ++ more)).map (pattern.length + ·), ?_, fun text => ?_⟩
    · rw [happend, hdrop, List.map_map]
      congr 2
      funext cut
      show last + pattern.length + cut = last + 0 + (pattern.length + cut)
      omega
    · show frames text 0 (SplitByRegexMode.starts.splits pattern (store.drop last ++ more)) = _ ∧
        stopOf 0 (SplitByRegexMode.starts.splits pattern (store.drop last ++ more)) = _
      rw [hrest, frames, stopOf]
      exact ⟨if_pos le_rfl, if_pos le_rfl⟩

/-- **A stream in two parts**: the frames of the first, then those of what it leaves with the second. -/
theorem framed_append (store more : List UInt8) : framed pattern mode (store ++ more) =
      ((framed pattern mode store).1 ++ (framed pattern mode ((framed pattern mode store).2 ++ more)).1,
        (framed pattern mode ((framed pattern mode store).2 ++ more)).2) := by
  rcases List.eq_nil_or_concat (occurrences pattern store) with hnone | ⟨front, last, h⟩
  · have hsplits : mode.splits pattern store = [] := by
      unfold SplitByRegexMode.splits
      rw [hnone]
      rfl
    have hstore : framed pattern mode store = ([], store) := by
      unfold framed
      rw [hsplits]
      rfl
    rw [hstore]
    rfl
  · rw [List.concat_eq_append] at h
    obtain ⟨cuts, happend, hcuts⟩ := splits_rest hpattern mode h more
    have hstop := stopOf_splits hpattern mode h
    have hle : last + mode.taken pattern.length ≤ store.length := by
      have hlast := occurrences_le hpattern (show last ∈ occurrences pattern store by rw [h]; simp)
      cases mode with
      | starts => exact (Nat.le_add_right _ _).trans hlast
      | ends | between => exact hlast
    have hrest : (store ++ more).drop (last + mode.taken pattern.length) =
        store.drop (last + mode.taken pattern.length) ++ more := List.drop_append_of_le_length hle
    unfold framed
    rw [happend, frames_append, stopOf_append, hstop, frames_front _ _ _ _ (splits_le hpattern mode),
      (hcuts _).1, (hcuts []).2]
    have hframes := frames_shift (store ++ more) (last + mode.taken pattern.length) cuts 0
    have hend := stopOf_shift (last + mode.taken pattern.length) cuts 0
    rw [Nat.add_zero, hrest] at hframes
    rw [Nat.add_zero] at hend
    have hdrop : (store ++ more).drop (last + mode.taken pattern.length + stopOf 0 cuts) =
        (store.drop (last + mode.taken pattern.length) ++ more).drop (stopOf 0 cuts) := by
      rw [← hrest, List.drop_drop]
    rw [hframes, hend, hdrop]

end Modes

/-! ## 4. Streams in any parts -/

/-- A push, and whether the buffer is drained after it. -/
structure Arrival where
  utc : DateTime
  data : List UInt8
  drained : Bool

/-- The frames of a run of pushes and drains, and the buffer it ends in; `none` if a push is refused. -/
def feed (splitter : Buffer → List Int) (linearize : Bool) : Buffer → List Arrival →
    Option (List (List UInt8) × Buffer)
  | buffer, [] => some ([], buffer)
  | buffer, arrival :: rest => do
    let pushed ← buffer.push arrival.utc (.bytes arrival.data) none
    if arrival.drained then
      let drained := pushed.drain (splitter pushed) linearize
      let (later, last) ← feed splitter linearize drained.2 rest
      return (drained.1.map Chunk.data ++ later, last)
    else feed splitter linearize pushed rest

/-- A buffer that comes from pushes and drains. -/
def Kept (buffer : Buffer) : Prop := ∃ l : Ledger, l.Inv ∧ l.buffer = buffer

theorem push_store {buffer pushed : Buffer} {utc : DateTime} {input : ChunkInput} {time : Option Time}
    (h : buffer.push utc input time = some pushed) : pushed.store = buffer.store ++ input.data := by
  unfold Buffer.push at h
  split at h
  · rename_i hempty
    obtain rfl := Option.some.inj h
    rw [hempty, List.append_nil]
  · dsimp only at h
    repeat' split at h
    all_goals first
      | (obtain rfl := Option.some.inj h; rfl)
      | cases h

theorem Kept.push {buffer pushed : Buffer} (hbuffer : Kept buffer) {utc : DateTime} {input : ChunkInput}
    {time : Option Time} (h : buffer.push utc input time = some pushed) : Kept pushed := by
  obtain ⟨l, hI, rfl⟩ := hbuffer
  have hpush : l.push utc input time = some { l with
      buffer := pushed
      pushed := l.pushed ++ input.data.map fun byte =>
        (byte, Buffer.pushTimestamp l.buffer.latestTimestamp utc (time <|> input.time)) } := by
    unfold Ledger.push
    rw [h]
    rfl
  exact ⟨_, Ledger.inv_push hI hpush, rfl⟩

theorem Kept.drain {buffer : Buffer} (hbuffer : Kept buffer) (splits : List Int) (linearize : Bool) :
    Kept (buffer.drain splits linearize).2 := by
  obtain ⟨l, hI, rfl⟩ := hbuffer
  exact ⟨_, Ledger.inv_drain hI splits linearize, rfl⟩

section Feeds

variable {pattern : List UInt8} (hpattern : pattern ≠ []) (mode : SplitByRegexMode) (linearize : Bool)
include hpattern

/-- **A run** drains the frames of what its buffer holds and what arrives, and leaves the rest, if the last push
    is drained. -/
theorem feed_framed {arrivals : List Arrival} : ∀ {buffer last : Buffer} {drained : List (List UInt8)},
    Kept buffer → arrivals ≠ [] → (∀ arrival ∈ arrivals.getLast?, arrival.drained = true) →
      feed (splitByRegex pattern mode) linearize buffer arrivals = some (drained, last) →
      (drained, last.store) = framed pattern mode (buffer.store ++ (arrivals.map (·.data)).flatten) := by
  induction arrivals with
  | nil => exact fun _ hne => absurd rfl hne
  | cons arrival rest ih =>
    intro buffer last drained hbuffer _ hlast h
    rw [feed] at h
    obtain ⟨pushed, hpush, h⟩ := Option.bind_eq_some_iff.mp h
    have hpushed := hbuffer.push hpush
    have hstore : pushed.store = buffer.store ++ arrival.data := push_store hpush
    have hrest : rest ≠ [] → ∀ arrival ∈ rest.getLast?, arrival.drained = true := by
      intro hne later hlater
      refine hlast later ?_
      obtain ⟨second, others, rfl⟩ := List.exists_cons_of_ne_nil hne
      rwa [List.getLast?_cons_cons]
    rw [List.map_cons, List.flatten_cons, ← List.append_assoc, ← hstore]
    split at h
    · obtain ⟨⟨later, final⟩, hlater, h⟩ := Option.bind_eq_some_iff.mp h
      obtain ⟨rfl, rfl⟩ := Prod.mk.inj (Option.some.inj h)
      obtain ⟨l, hI, rfl⟩ := id hpushed
      obtain ⟨hframes, hleft⟩ := drain_framed hI hpattern mode linearize
      by_cases hne : rest = []
      · subst hne
        obtain ⟨rfl, rfl⟩ := Prod.mk.inj (Option.some.inj hlater)
        rw [List.map_nil, List.flatten_nil, List.append_nil, List.append_nil]
        exact Prod.ext hframes hleft
      · have hih := ih (hpushed.drain _ linearize) hne (hrest hne) hlater
        rw [framed_append hpattern mode, ← hframes, ← hleft, ← hih]
    · rename_i hundrained
      have hne : rest ≠ [] := by
        rintro rfl
        exact hundrained (hlast arrival rfl)
      exact ih hpushed hne (hrest hne) h

end Feeds

/-- A splitter of lines, or of the matches of a word. -/
def Literal (splitter : Buffer → List Int) : Prop :=
  splitter = splitByLine ∨ ∃ pattern mode, pattern ≠ [] ∧ splitter = splitByRegex pattern mode

/-- **Framing does not depend on how the bytes arrive.** Pushes and drains, the last push drained, give the frames
    and leave the bytes that one push of the whole stream and one drain give and leave. -/
theorem framing_independent {splitter : Buffer → List Int} (hsplitter : Literal splitter)
    (linearize linearize' : Bool) (utc : DateTime) {arrivals : List Arrival}
    (hlast : ∀ arrival ∈ arrivals.getLast?, arrival.drained = true) {drained : List (List UInt8)} {last : Buffer}
    (h : feed splitter linearize {} arrivals = some (drained, last)) :
    ∃ whole, feed splitter linearize' {} [⟨utc, (arrivals.map (·.data)).flatten, true⟩] = some (drained, whole) ∧
      whole.store = last.store := by
  obtain ⟨pattern, mode, hpattern, rfl⟩ : ∃ pattern mode, pattern ≠ [] ∧ splitter = splitByRegex pattern mode := by
    rcases hsplitter with rfl | hregex
    · exact ⟨[10], .ends, by simp, rfl⟩
    · exact hregex
  have hempty : Kept {} := ⟨{}, Ledger.inv_init, rfl⟩
  by_cases hne : arrivals = []
  · subst hne
    obtain ⟨rfl, rfl⟩ := Prod.mk.inj (Option.some.inj h)
    exact ⟨_, rfl, rfl⟩
  have hparts := feed_framed hpattern mode linearize hempty hne hlast h
  -- a push into an empty buffer is accepted
  obtain ⟨pushed, hpush⟩ : ∃ pushed, Buffer.push {} utc (.bytes (arrivals.map (·.data)).flatten) none =
      some pushed := by
    unfold Buffer.push
    split
    · exact ⟨_, rfl⟩
    · dsimp only
      rw [if_neg (by simp), if_neg (by simp)]
      exact ⟨_, rfl⟩
  have hwhole : feed (splitByRegex pattern mode) linearize' {} [⟨utc, (arrivals.map (·.data)).flatten, true⟩] =
      some ((pushed.drain (splitByRegex pattern mode pushed) linearize').1.map Chunk.data ++ [],
        (pushed.drain (splitByRegex pattern mode pushed) linearize').2) := by
    rw [feed, Option.bind_eq_bind, hpush]
    rfl
  have honce := feed_framed hpattern mode linearize' hempty (List.cons_ne_nil _ _)
    (fun arrival harrival => by obtain rfl := Option.some.inj harrival; rfl) hwhole
  rw [List.map_singleton, List.flatten_singleton, ← hparts] at honce
  obtain ⟨hframes, hleft⟩ := Prod.mk.inj honce
  exact ⟨_, by rw [hwhole, hframes], hleft⟩

/-- A delimiter of two bytes in two pushes. -/
theorem crlf_in_two : ∃ whole,
    feed (splitByRegex [13, 10] .ends) false {} [⟨0, [97, 13, 10, 98], true⟩] = some ([[97, 13, 10]], whole) ∧
      whole.store = [98] := by
  have hfeed : feed (splitByRegex [13, 10] .ends) true {} [⟨0, [97, 13], true⟩, ⟨1, [10, 98], true⟩] =
      some ([[97, 13, 10]],
        { store := [98], startPosition := 3, entries := [⟨4, 1⟩], latestTimestamp := some 1 }) := by
    decide
  exact framing_independent (.inr ⟨[13, 10], .ends, by simp, rfl⟩) true false 0
    (fun arrival harrival => by obtain rfl := Option.some.inj harrival; rfl) hfeed

/-- A line that is pushed and not drained is no frame yet. -/
theorem undrained_line :
    (feed splitByLine true {} [⟨0, [10], false⟩]).map (fun result => (result.1, result.2.store)) = some ([], [10]) ∧
      (feed splitByLine true {} [⟨0, [10], true⟩]).map (fun result => (result.1, result.2.store)) =
        some ([[10]], []) := by
  decide

end Ceres.Connection
