/-
  File:      Ceres/Connection/Buffer.lean
  Subject:   THE TIMESTAMPED BYTE BUFFER (`ceres/connection/buffer.py`).

  One contiguous byte store and a parallel list of `(end position, timestamp)` entries. The
  positions are ABSOLUTE (they count bytes since the buffer was last empty), the indices a
  caller uses are relative to the current front.

  * `push`, `extend`, `pop`, `popTo`, `drain`, `clear` -- the operations, as the source has
    them; `timestampAt` -- the lookup;
  * `Ledger` -- the buffer together with what was pushed into it and what was taken out of it
    since the last `clear` (the record the property speaks about, not part of the code);
  * `Ledger.Inv` -- the one index invariant, kept by every operation (`Ledger.inv_step`) and so
    along every run (`Ledger.inv_run`).
-/
import Mathlib.Data.List.Basic
import Mathlib.Data.List.TakeDrop
import Mathlib.Order.Basic
import Mathlib.Tactic

namespace Ceres.Connection

/-- An instant, in microseconds. -/
abbrev DateTime := Int

/-- A span of time, in microseconds. -/
abbrev TimeDelta := Int

/-! ## 1. The data model -/

/-- A timestamped block of bytes. -/
structure Chunk where
  data : List UInt8
  timestamp : DateTime
  deriving DecidableEq, Repr

/-- The `time` argument of a push: an absolute instant or an offset from the latest one. -/
inductive Time where
  | datetime (t : DateTime)
  | timedelta (d : TimeDelta)
  deriving DecidableEq, Repr

/-- Anything that can be pushed as one chunk. -/
inductive ChunkInput where
  | bytes (data : List UInt8)
  | chunk (c : Chunk)
  | pair (data : List UInt8) (time : Time)
  deriving DecidableEq, Repr

namespace ChunkInput

/-- The bytes of a push. -/
def data : ChunkInput → List UInt8
  | bytes d => d
  | chunk c => c.data
  | pair d _ => d

/-- The time a push embeds, taken when no explicit one is given. -/
def time : ChunkInput → Option Time
  | bytes _ => none
  | chunk c => some (.datetime c.timestamp)
  | pair _ t => some t

end ChunkInput

/-- An index entry: the exclusive end position of a chunk. -/
structure BufferEntry where
  endPosition : Nat
  timestamp : DateTime
  deriving DecidableEq, Repr

/-- The buffer. `dataBytes` is the cached copy the `data` property hands out. -/
structure Buffer where
  store : List UInt8 := []
  dataBytes : Option (List UInt8) := none
  startPosition : Nat := 0
  entries : List BufferEntry := []
  latestTimestamp : Option DateTime := none
  deriving DecidableEq, Repr

namespace Buffer

/-- Total number of bytes currently held. -/
def size (b : Buffer) : Nat := b.store.length

/-- The `data` property: the cached copy, filled on first access. -/
def data (b : Buffer) : List UInt8 × Buffer :=
  match b.dataBytes with
  | some d => (d, b)
  | none => (b.store, { b with dataBytes := some b.store })

/-! ## 2. Lookups -/

/-- `bisect.bisect_right` over the end positions: how many leading keys are at most `x`. -/
def bisectRight (entries : List BufferEntry) (x : Nat) : Nat :=
  (entries.takeWhile fun e => e.endPosition ≤ x).length

/-- The index of the entry whose byte range contains `index`, `none` out of bounds. -/
def getEntryIndexAt (b : Buffer) (index : Int) : Option Nat :=
  if index < 0 ∨ index ≥ b.size then none
  else some (bisectRight b.entries (b.startPosition + index.toNat))

def getEntryAt (b : Buffer) (index : Int) : Option BufferEntry :=
  (b.getEntryIndexAt index).bind fun i => b.entries[i]?

/-- The timestamp of the chunk containing the byte at `index`. -/
def timestampAt (b : Buffer) (index : Int) : Option DateTime :=
  (b.getEntryAt index).map (·.timestamp)

/-! ## 3. Mutations -/

/-- The timestamp a push resolves to, from the latest one, the clock and its `time`. -/
def pushTimestamp (latest : Option DateTime) (utc : DateTime) : Option Time → DateTime
  | none => utc
  | some (.timedelta d) => latest.getD utc + d
  | some (.datetime t) => t

/-- The last entry takes `n` more bytes, `none` when there is no entry. -/
def growLast : List BufferEntry → Nat → Option (List BufferEntry)
  | [], _ => none
  | [e], n => some [{ e with endPosition := e.endPosition + n }]
  | e :: f :: rest, n => (growLast (f :: rest) n).map (e :: ·)

/-- Append the bytes of `input`, `none` for the `ValueError` of a timestamp that goes back. -/
def push (b : Buffer) (utc : DateTime) (input : ChunkInput) (time : Option Time) :
    Option Buffer :=
  if input.data = [] then some b
  else
    let timestamp := pushTimestamp b.latestTimestamp utc (time <|> input.time)
    if b.entries ≠ [] ∧ ∃ latest ∈ b.latestTimestamp, timestamp < latest then none
    else
      let grown := { b with store := b.store ++ input.data, dataBytes := none }
      let append : Buffer :=
        { grown with
          entries := b.entries ++
            [⟨b.startPosition + b.store.length + input.data.length, timestamp⟩]
          latestTimestamp := some timestamp }
      if some timestamp = b.latestTimestamp then
        match growLast b.entries input.data.length with
        | some entries => some { grown with entries := entries }
        | none => some append
      else some append

/-- Push each input in order, each at its own clock reading. The flag says whether every push
    was accepted; a refused one ends the walk with what was already pushed. -/
def extend (b : Buffer) : List (DateTime × ChunkInput) → Buffer × Bool
  | [] => (b, true)
  | (utc, input) :: rest =>
    match b.push utc input none with
    | some b' => b'.extend rest
    | none => (b, false)

/-- Remove the first `count` bytes, clamped to the size. -/
def pop (b : Buffer) (count : Int) : Option Chunk × Buffer :=
  if count ≤ 0 then (none, b)
  else
    let count := min count.toNat b.size
    match b.getEntryIndexAt (count - 1) with
    | none => (none, b)
    | some entryIndex =>
      match b.entries[entryIndex]? with
      | none => (none, b)
      | some entry =>
        let nextStartPosition := b.startPosition + count
        let nextEntryIndex :=
          if entry.endPosition ≤ nextStartPosition then entryIndex + 1 else entryIndex
        let entries := b.entries.drop nextEntryIndex
        (some ⟨b.store.take count, entry.timestamp⟩,
          { b with
            store := b.store.drop count
            dataBytes := none
            entries := entries
            startPosition := if entries = [] then 0 else nextStartPosition })

/-- Pop in multiples of `by` until the buffer fits within `size` bytes, `none` for the
    `ZeroDivisionError` of `by = 0`. -/
def popTo (b : Buffer) (size : Int) (granularity : Int) : Option (Option Chunk × Buffer) :=
  let excess := b.size - size
  if excess ≤ 0 then some (none, b)
  else if granularity = 0 then none
  else
    let pops := Int.fdiv excess granularity
    let pops := if Int.fmod excess granularity ≠ 0 then pops + 1 else pops
    some (b.pop (pops * granularity))

/-- Remove all data and reset the indices. -/
def clear (_ : Buffer) : Buffer := {}

/-! ## 4. Splitting and draining -/

/-- A view of the bytes `start .. stop` of the buffer. -/
structure VirtualChunk where
  start : Nat
  stop : Nat
  timestamp : DateTime
  deriving DecidableEq, Repr

/-- The timestamp a view gets: with `linearize`, strictly after the previous view's. -/
def linearized (linearize : Bool) (previous : Option VirtualChunk) (timestamp : DateTime) :
    DateTime :=
  match previous with
  | some p => if linearize ∧ timestamp ≤ p.timestamp then p.timestamp + 1 else timestamp
  | none => timestamp

/-- The loop of `split` over the exclusive end indices a splitter yields, after `previous`. -/
def splitFrom (b : Buffer) (linearize : Bool) : Option VirtualChunk → List Int →
    List VirtualChunk
  | _, [] => []
  | previous, split :: rest =>
    match b.timestampAt (split - 1) with
    | none => splitFrom b linearize previous rest
    | some timestamp =>
      let start : Nat := (previous.map (·.stop)).getD 0
      if split ≤ start then splitFrom b linearize previous rest
      else
        let chunk : VirtualChunk :=
          ⟨start, split.toNat, linearized linearize previous timestamp⟩
        chunk :: splitFrom b linearize (some chunk) rest

/-- The views a splitter cuts the buffer into; `splits` is what the splitter yields. -/
def split (b : Buffer) (splits : List Int) (linearize : Bool) : List VirtualChunk :=
  splitFrom b linearize none splits

/-- A view as a chunk of its own. -/
def resolve (b : Buffer) (v : VirtualChunk) : Chunk :=
  ⟨(b.store.take v.stop).drop v.start, v.timestamp⟩

/-- Split the buffer, pop the consumed bytes and return the chunks. -/
def drain (b : Buffer) (splits : List Int) (linearize : Bool) : List Chunk × Buffer :=
  let views := b.split splits linearize
  let chunks := views.map b.resolve
  match views.getLast? with
  | some v => (chunks, (b.pop v.stop).2)
  | none => (chunks, b)

/-! ## 5. The index, read as one timestamp per byte -/

/-- The entries from position `p` on, as the timestamp of each byte they cover. -/
def spread : Nat → List BufferEntry → List DateTime
  | _, [] => []
  | p, e :: rest => List.replicate (e.endPosition - p) e.timestamp ++ spread e.endPosition rest

/-- The end positions rise strictly, starting above `p`. -/
def Ascending : Nat → List BufferEntry → Prop
  | _, [] => True
  | p, e :: rest => p < e.endPosition ∧ Ascending e.endPosition rest

/-- Where the last entry ends, `p` when there is none. -/
def lastEnd : Nat → List BufferEntry → Nat
  | p, [] => p
  | _, e :: rest => lastEnd e.endPosition rest

theorem le_lastEnd : ∀ (entries : List BufferEntry) (p : Nat), Ascending p entries → p ≤ lastEnd p entries
  | [], _, _ => Nat.le_refl _
  | e :: rest, p, h => by
      have := le_lastEnd rest e.endPosition h.2
      have := h.1
      simp only [lastEnd]
      omega

theorem spread_length : ∀ (entries : List BufferEntry) (p : Nat), Ascending p entries →
    (spread p entries).length = lastEnd p entries - p
  | [], p, _ => by simp [spread, lastEnd]
  | e :: rest, p, h => by
      have ih := spread_length rest e.endPosition h.2
      have hle := le_lastEnd rest e.endPosition h.2
      have hlt := h.1
      simp only [spread, lastEnd, List.length_append, List.length_replicate, ih]
      omega

/-- **The lookup reads the spread index**: the entry `bisectRight` finds carries the timestamp
    of the byte. -/
theorem bisectRight_spread : ∀ (entries : List BufferEntry) (p i : Nat), Ascending p entries →
    (entries[bisectRight entries (p + i)]?).map (·.timestamp) = (spread p entries)[i]?
  | [], _, _, _ => by simp [spread]
  | e :: rest, p, i, h => by
      obtain ⟨hlt, hrest⟩ := h
      by_cases he : e.endPosition ≤ p + i
      · have hi : p + i = e.endPosition + (i - (e.endPosition - p)) := by omega
        have hb : bisectRight (e :: rest) (p + i) = bisectRight rest (p + i) + 1 := by
          simp [bisectRight, he]
        rw [hb, List.getElem?_cons_succ, hi, bisectRight_spread rest _ _ hrest, spread,
          List.getElem?_append_right (by rw [List.length_replicate]; omega),
          List.length_replicate]
      · have hb : bisectRight (e :: rest) (p + i) = 0 := by simp [bisectRight, he]
        have hi : i < e.endPosition - p := by omega
        rw [hb, spread, List.getElem?_append_left (by rw [List.length_replicate]; exact hi),
          List.getElem?_replicate_of_lt hi]
        rfl

/-- The entries that reach past position `q`. -/
def beyond (entries : List BufferEntry) (q : Nat) : List BufferEntry :=
  entries.dropWhile fun e => e.endPosition ≤ q

theorem beyond_cons_of_le {e : BufferEntry} {rest : List BufferEntry} {q : Nat}
    (h : e.endPosition ≤ q) : beyond (e :: rest) q = beyond rest q := by
  simp [beyond, h]

theorem beyond_cons_of_lt {e : BufferEntry} {rest : List BufferEntry} {q : Nat}
    (h : q < e.endPosition) : beyond (e :: rest) q = e :: rest := by
  simp [beyond, Nat.not_le.mpr h]

/-- What `pop` keeps of the entries: the boundary entry stays exactly when it reaches past the
    popped bytes. -/
theorem drop_boundary : ∀ (entries : List BufferEntry) (p n : Nat), Ascending p entries →
    ∀ entry, entries[bisectRight entries (p + n)]? = some entry →
      entries.drop (if entry.endPosition ≤ p + (n + 1) then bisectRight entries (p + n) + 1
        else bisectRight entries (p + n)) = beyond entries (p + (n + 1))
  | [], _, _, _, _, h => by simp at h
  | e :: rest, p, n, hasc, entry, h => by
      obtain ⟨hlt, hrest⟩ := hasc
      by_cases he : e.endPosition ≤ p + n
      · have hb : bisectRight (e :: rest) (p + n) = bisectRight rest (p + n) + 1 := by
          simp [bisectRight, he]
        rw [hb] at h ⊢
        rw [List.getElem?_cons_succ] at h
        have hn : p + n = e.endPosition + (n - (e.endPosition - p)) := by omega
        have hn' : p + (n + 1) = e.endPosition + (n - (e.endPosition - p) + 1) := by omega
        rw [hn] at h
        have ih := drop_boundary rest e.endPosition (n - (e.endPosition - p)) hrest entry h
        rw [beyond_cons_of_le (by omega), hn, hn', ← ih]
        split <;> rw [List.drop_succ_cons]
      · have hb : bisectRight (e :: rest) (p + n) = 0 := by simp [bisectRight, he]
        rw [hb] at h ⊢
        simp only [List.getElem?_cons_zero, Option.some.injEq] at h
        subst h
        by_cases hq : e.endPosition ≤ p + (n + 1)
        · have heq : e.endPosition = p + (n + 1) := by omega
          rw [if_pos hq, beyond_cons_of_le hq]
          simp only [Nat.zero_add, List.drop_succ_cons, List.drop_zero]
          -- the next entry starts where this one ends, so nothing more is dropped
          cases rest with
          | nil => rfl
          | cons f rest => rw [beyond_cons_of_lt (by rw [← heq]; exact hrest.1)]
        · rw [if_neg hq, beyond_cons_of_lt (by omega), List.drop_zero]

theorem ascending_beyond : ∀ (entries : List BufferEntry) (p q : Nat), Ascending p entries →
    p ≤ q → Ascending q (beyond entries q)
  | [], _, _, _, _ => trivial
  | e :: rest, p, q, h, hpq => by
      by_cases he : e.endPosition ≤ q
      · rw [beyond_cons_of_le he]
        exact ascending_beyond rest e.endPosition q h.2 he
      · rw [beyond_cons_of_lt (by omega)]
        exact ⟨by omega, h.2⟩

theorem lastEnd_beyond : ∀ (entries : List BufferEntry) (p q : Nat), Ascending p entries →
    p ≤ q → q ≤ lastEnd p entries → lastEnd q (beyond entries q) = lastEnd p entries
  | [], p, q, _, hpq, hq => by
      simp only [lastEnd] at hq
      simp only [beyond, List.dropWhile_nil, lastEnd]
      omega
  | e :: rest, p, q, h, hpq, hq => by
      by_cases he : e.endPosition ≤ q
      · rw [beyond_cons_of_le he]
        exact lastEnd_beyond rest e.endPosition q h.2 he hq
      · rw [beyond_cons_of_lt (by omega)]
        rfl

theorem spread_beyond : ∀ (entries : List BufferEntry) (p q : Nat), Ascending p entries →
    p ≤ q → spread q (beyond entries q) = (spread p entries).drop (q - p)
  | [], _, _, _, _ => by simp [beyond, spread]
  | e :: rest, p, q, h, hpq => by
      have hlt := h.1
      by_cases he : e.endPosition ≤ q
      · have hd : q - p = (e.endPosition - p) + (q - e.endPosition) := by omega
        rw [beyond_cons_of_le he, spread_beyond rest e.endPosition q h.2 he, spread, hd]
        rw [List.drop_append, List.length_replicate]
        simp
      · have hd : q - p ≤ (List.replicate (e.endPosition - p) e.timestamp).length := by
          rw [List.length_replicate]; omega
        rw [beyond_cons_of_lt (by omega), spread, spread, List.drop_append_of_le_length hd,
          List.drop_replicate]
        congr 2
        omega

theorem append_entry : ∀ (entries : List BufferEntry) (p n : Nat) (t : DateTime), Ascending p entries → 0 < n →
    Ascending p (entries ++ [⟨lastEnd p entries + n, t⟩]) ∧
      lastEnd p (entries ++ [⟨lastEnd p entries + n, t⟩]) = lastEnd p entries + n ∧
      spread p (entries ++ [⟨lastEnd p entries + n, t⟩]) = spread p entries ++ List.replicate n t
  | [], p, n, t, _, hn => by
      simp only [List.nil_append, lastEnd, Ascending, spread, List.append_nil, and_true]
      refine ⟨by omega, trivial, ?_⟩
      congr 1
      omega
  | e :: rest, p, n, t, h, hn => by
      obtain ⟨ha, hl, hs⟩ := append_entry rest e.endPosition n t h.2 hn
      refine ⟨⟨h.1, ha⟩, hl, ?_⟩
      simp only [List.cons_append, spread, lastEnd, hs, List.append_assoc]

theorem growLast_entry : ∀ (entries : List BufferEntry) (p n : Nat) (t : DateTime),
    Ascending p entries → entries.getLast?.map (·.timestamp) = some t →
    ∃ es, growLast entries n = some es ∧ Ascending p es ∧ lastEnd p es = lastEnd p entries + n ∧
      spread p es = spread p entries ++ List.replicate n t ∧ es.getLast?.map (·.timestamp) = some t
  | [], _, _, _, _, h => by simp at h
  | [e], p, n, t, hasc, h => by
      have ht : e.timestamp = t := by simpa using h
      have hlt := hasc.1
      refine ⟨_, rfl, ⟨by simp only; omega, trivial⟩, rfl, ?_, by simpa using h⟩
      simp only [spread, List.append_nil, ht, List.replicate_append_replicate]
      congr 1
      omega
  | e :: f :: rest, p, n, t, hasc, h => by
      have h' : (f :: rest).getLast?.map (·.timestamp) = some t := by
        simpa [List.getLast?_cons_cons] using h
      obtain ⟨es, hg, ha, hl, hs, ht⟩ := growLast_entry (f :: rest) e.endPosition n t hasc.2 h'
      refine ⟨e :: es, by simp [growLast, hg], ⟨hasc.1, ha⟩, hl, ?_, ?_⟩
      · show List.replicate (e.endPosition - p) e.timestamp ++ spread e.endPosition es = _
        rw [hs, ← List.append_assoc]
        rfl
      · cases es with
        | nil => simp at ht
        | cons g es => simpa [List.getLast?_cons_cons] using ht

end Buffer

/-! ## 6. The buffer with its record of pushes and takes -/

/-- The buffer with every byte pushed since the last `clear`, each under the timestamp its push
    gave it, and every byte popped or drained since then. -/
structure Ledger where
  buffer : Buffer := {}
  pushed : List (UInt8 × DateTime) := []
  taken : List UInt8 := []

/-- An operation on the buffer; `read` is an access of the cached `data` property. -/
inductive Op where
  | push (utc : DateTime) (input : ChunkInput) (time : Option Time)
  | extend (inputs : List (DateTime × ChunkInput))
  | pop (count : Int)
  | popTo (size granularity : Int)
  | drain (splits : List Int) (linearize : Bool)
  | clear
  | read

namespace Ledger

open Buffer

/-- A push, recorded when it is accepted. -/
def push (l : Ledger) (utc : DateTime) (input : ChunkInput) (time : Option Time) :
    Option Ledger :=
  (l.buffer.push utc input time).map fun b =>
    { l with
      buffer := b
      pushed := l.pushed ++ input.data.map fun byte =>
        (byte, pushTimestamp l.buffer.latestTimestamp utc (time <|> input.time)) }

/-- Pushes in order up to the first refused one. -/
def extend (l : Ledger) : List (DateTime × ChunkInput) → Ledger
  | [] => l
  | (utc, input) :: rest =>
    match l.push utc input none with
    | some l' => l'.extend rest
    | none => l

/-- A pop, recorded by the chunk it returns. -/
def take (l : Ledger) (popped : Option Chunk × Buffer) : Ledger :=
  { l with buffer := popped.2, taken := l.taken ++ (popped.1.map (·.data)).getD [] }

/-- One operation. A refused one changes nothing. -/
def step (l : Ledger) : Op → Ledger
  | .push utc input time => (l.push utc input time).getD l
  | .extend inputs => l.extend inputs
  | .pop count => l.take (l.buffer.pop count)
  | .popTo size granularity => ((l.buffer.popTo size granularity).map l.take).getD l
  | .drain splits linearize =>
    let drained := l.buffer.drain splits linearize
    { l with buffer := drained.2, taken := l.taken ++ (drained.1.map (·.data)).flatten }
  | .clear => { buffer := l.buffer.clear }
  | .read => { l with buffer := l.buffer.data.2 }

/-- The ledger after a run of operations on a new buffer. -/
def run (ops : List Op) : Ledger := ops.foldl step {}

/-- The recorded pushes end in the buffer `Buffer.extend` ends in. -/
theorem extend_buffer : ∀ (inputs : List (DateTime × ChunkInput)) (l : Ledger),
    (l.extend inputs).buffer = (l.buffer.extend inputs).1
  | [], _ => rfl
  | (utc, input) :: rest, l => by
      cases h : l.buffer.push utc input none with
      | none => simp only [extend, push, h, Option.map_none, Buffer.extend]
      | some b =>
        simp only [extend, push, h, Option.map_some, Buffer.extend]
        exact extend_buffer rest _

/-- **The index invariant.** -/
structure Inv (l : Ledger) : Prop where
  ascending : Ascending l.buffer.startPosition l.buffer.entries
  ends : lastEnd l.buffer.startPosition l.buffer.entries =
    l.buffer.startPosition + l.buffer.size
  latest : ∀ e, l.buffer.entries.getLast? = some e → l.buffer.latestTimestamp = some e.timestamp
  cached : ∀ d, l.buffer.dataBytes = some d → d = l.buffer.store
  bytes : l.taken ++ l.buffer.store = l.pushed.map Prod.fst
  stamps : spread l.buffer.startPosition l.buffer.entries =
    (l.pushed.drop l.taken.length).map Prod.snd

theorem inv_init : Inv {} where
  ascending := trivial
  ends := rfl
  latest _ h := by simp at h
  cached _ h := by simp at h
  bytes := rfl
  stamps := rfl

variable {l : Ledger}

theorem Inv.taken_le (hI : l.Inv) : l.taken.length ≤ l.pushed.length := by
  have h := congrArg List.length hI.bytes
  simp only [List.length_append, List.length_map] at h
  omega

/-- **An accepted push keeps the invariant.** -/
theorem inv_push {l l' : Ledger} {utc : DateTime} {input : ChunkInput} {time : Option Time}
    (hI : l.Inv) (h : l.push utc input time = some l') : l'.Inv := by
  unfold push Buffer.push at h
  by_cases hd : input.data = []
  · simp only [hd, if_true, List.map_nil, List.append_nil, Option.map_some,
      Option.some.injEq] at h
    subst h
    exact hI
  · have hpos : 0 < input.data.length := List.length_pos_iff.mpr hd
    have hdrop : ∀ t, ((l.pushed ++ input.data.map fun byte => (byte, t)).drop
        l.taken.length).map Prod.snd =
        (l.pushed.drop l.taken.length).map Prod.snd ++ List.replicate input.data.length t := by
      intro t
      rw [List.drop_append_of_le_length hI.taken_le, List.map_append, List.map_map]
      congr 1
      exact List.map_const'
    have hbytes : ∀ t, l.taken ++ (l.buffer.store ++ input.data) =
        (l.pushed ++ input.data.map fun byte => (byte, t)).map Prod.fst := by
      intro t
      rw [← List.append_assoc, hI.bytes, List.map_append, List.map_map]
      congr 1
      exact (List.map_id _).symm
    simp only [hd, if_false] at h
    generalize pushTimestamp l.buffer.latestTimestamp utc (time <|> input.time) = t at h
    split at h
    · simp at h
    · have hend : l.buffer.startPosition + l.buffer.store.length + input.data.length =
          lastEnd l.buffer.startPosition l.buffer.entries + input.data.length := by
        rw [hI.ends]; rfl
      obtain ⟨ha, hl, hs⟩ := append_entry l.buffer.entries l.buffer.startPosition
        input.data.length t hI.ascending hpos
      rw [hend] at h
      have happ : Inv
          { buffer :=
              { store := l.buffer.store ++ input.data
                dataBytes := none
                startPosition := l.buffer.startPosition
                entries := l.buffer.entries ++
                  [⟨lastEnd l.buffer.startPosition l.buffer.entries + input.data.length, t⟩]
                latestTimestamp := some t }
            pushed := l.pushed ++ input.data.map fun byte => (byte, t)
            taken := l.taken } :=
        { ascending := ha
          ends := by
            rw [hl, hI.ends]
            simp only [size, List.length_append]
            omega
          latest := fun e he => by
            simp only [List.getLast?_append, List.getLast?_singleton, Option.some_or,
              Option.some.injEq] at he
            subst he
            rfl
          cached := fun _ hc => by simp at hc
          bytes := hbytes t
          stamps := by rw [hs, hdrop, hI.stamps] }
      split at h
      · rename_i ht
        cases hlast : l.buffer.entries.getLast? with
        | none =>
          have hnil : l.buffer.entries = [] := List.getLast?_eq_none_iff.mp hlast
          rw [hnil] at h
          simp only [growLast, Option.map_some, Option.some.injEq] at h
          subst h
          rw [hnil] at happ
          exact happ
        | some e =>
          have het : l.buffer.entries.getLast?.map (·.timestamp) = some t := by
            rw [hlast, ht, hI.latest e hlast]
            rfl
          obtain ⟨es, hg, ha', hl', hs', ht'⟩ := growLast_entry l.buffer.entries
            l.buffer.startPosition input.data.length t hI.ascending het
          rw [hg] at h
          simp only [Option.map_some, Option.some.injEq] at h
          subst h
          exact
            { ascending := ha'
              ends := by
                rw [hl', hI.ends]
                simp only [size, List.length_append]
                omega
              latest := fun f hf => by
                rw [hf] at ht'
                rw [← ht, ← ht']
                rfl
              cached := fun _ hc => by simp at hc
              bytes := hbytes t
              stamps := by rw [hs', hdrop, hI.stamps] }
      · simp only [Option.map_some, Option.some.injEq] at h
        subst h
        exact happ

theorem inv_extend : ∀ (inputs : List (DateTime × ChunkInput)) {l : Ledger}, l.Inv → (l.extend inputs).Inv
  | [], _, hI => hI
  | (utc, input) :: rest, l, hI => by
      unfold extend
      split
      · rename_i l' h
        exact inv_extend rest (inv_push hI h)
      · exact hI

/-- **What `pop` does under the invariant**: the front bytes leave, the entries that reach past
    them stay. -/
theorem pop_spec (hI : l.Inv) {count : Int} (hpos : 0 < count) (hne : l.buffer.store ≠ []) :
    ∃ t, l.buffer.pop count = (some ⟨l.buffer.store.take (min count.toNat l.buffer.size), t⟩, { l.buffer with
          store := l.buffer.store.drop (min count.toNat l.buffer.size), dataBytes := none
          entries := beyond l.buffer.entries (l.buffer.startPosition + min count.toNat l.buffer.size)
          startPosition :=
            if beyond l.buffer.entries
              (l.buffer.startPosition + min count.toNat l.buffer.size) = [] then 0
            else l.buffer.startPosition + min count.toNat l.buffer.size }) := by
  have hsize : 0 < l.buffer.size := List.length_pos_iff.mpr hne
  obtain ⟨n, hn⟩ : ∃ n, min count.toNat l.buffer.size = n + 1 := ⟨min count.toNat l.buffer.size - 1, by omega⟩
  have hle : n + 1 ≤ l.buffer.size := by omega
  have hlookup := bisectRight_spread l.buffer.entries l.buffer.startPosition n hI.ascending
  have hlen := spread_length _ _ hI.ascending
  rw [hI.ends] at hlen
  rw [List.getElem?_eq_getElem (show n < _ by omega)] at hlookup
  obtain ⟨entry, hentry, -⟩ := Option.map_eq_some_iff.mp hlookup
  have hidx : l.buffer.getEntryIndexAt (((n + 1 : Nat) : Int) - 1) =
      some (bisectRight l.buffer.entries (l.buffer.startPosition + n)) := by
    unfold getEntryIndexAt
    rw [if_neg (by omega)]
    congr 3
    omega
  refine ⟨entry.timestamp, ?_⟩
  unfold Buffer.pop
  rw [if_neg (by omega), hn]
  simp only [hidx, hentry, drop_boundary _ _ _ hI.ascending entry hentry]

/-- **A pop keeps the invariant.** -/
theorem inv_pop (hI : l.Inv) (count : Int) : (l.take (l.buffer.pop count)).Inv := by
  by_cases hpos : count ≤ 0
  · have h : l.buffer.pop count = (none, l.buffer) := by simp [Buffer.pop, hpos]
    rw [h]
    simpa [take] using hI
  by_cases hne : l.buffer.store = []
  · have h : l.buffer.pop count = (none, l.buffer) := by
      simp [Buffer.pop, hpos, getEntryIndexAt, size, hne]
    rw [h]
    simpa [take] using hI
  obtain ⟨t, h⟩ := pop_spec hI (by omega : 0 < count) hne
  rw [h]
  generalize hc : min count.toNat l.buffer.size = c at h
  have hcle : c ≤ l.buffer.size := by omega
  have hends := hI.ends
  have hasc := ascending_beyond _ _ (l.buffer.startPosition + c) hI.ascending (by omega)
  have hlast := lastEnd_beyond _ _ (l.buffer.startPosition + c) hI.ascending (by omega) (by omega)
  have hspread := spread_beyond _ _ (l.buffer.startPosition + c) hI.ascending (by omega)
  rw [hends] at hlast
  have htake : (l.taken ++ l.buffer.store.take c).length = l.taken.length + c := by
    rw [List.length_append, List.length_take]
    exact congrArg _ (Nat.min_eq_left hcle)
  have hbytes : l.taken ++ l.buffer.store.take c ++ l.buffer.store.drop c = l.pushed.map Prod.fst := by
    rw [List.append_assoc, List.take_append_drop, hI.bytes]
  have hstamps : spread (l.buffer.startPosition + c)
      (beyond l.buffer.entries (l.buffer.startPosition + c)) =
      (l.pushed.drop (l.taken ++ l.buffer.store.take c).length).map Prod.snd := by
    rw [hspread, hI.stamps, htake, ← List.map_drop, List.drop_drop]
    congr 2
    omega
  by_cases hnil : beyond l.buffer.entries (l.buffer.startPosition + c) = []
  · -- the buffer is empty again, and its positions start over
    rw [hnil] at hlast hstamps
    simp only [lastEnd] at hlast
    exact
      { ascending := by simp only [take, hnil]; trivial
        ends := by
          simp only [take, hnil, lastEnd, size, List.length_drop, if_true]
          simp only [size] at hlast
          omega
        latest := fun e he => by simp [take, hnil] at he
        cached := fun d hd => by simp [take] at hd
        bytes := hbytes
        stamps := by simpa [take, hnil, spread] using hstamps }
  · exact
      { ascending := by simpa [take, hnil] using hasc
        ends := by
          simp only [take, hnil, if_false, size, List.length_drop]
          simp only [size] at hlast hcle
          omega
        latest := fun e he => by
          refine hI.latest e ?_
          have hsuf : beyond l.buffer.entries (l.buffer.startPosition + c) <:+
              l.buffer.entries := List.dropWhile_suffix _
          obtain ⟨pre, hpre⟩ := hsuf
          rw [← hpre, List.getLast?_append_of_ne_nil _ hnil]
          exact he
        cached := fun d hd => by simp [take] at hd
        bytes := hbytes
        stamps := by simpa [take, hnil] using hstamps }

/-- A view ends inside the buffer. -/
theorem timestampAt_lt {b : Buffer} {split : Int} {t : DateTime}
    (h : b.timestampAt (split - 1) = some t) : 0 < split ∧ split.toNat ≤ b.size := by
  unfold timestampAt getEntryAt getEntryIndexAt at h
  split at h
  · simp at h
  · omega

/-- **The views cover the front without gap or overlap**: from the end of `previous` to the end
    of the last view. -/
theorem splitFrom_data (b : Buffer) (linearize : Bool) : ∀ (splits : List Int) (previous : Option VirtualChunk),
      (previous.map (·.stop)).getD 0 ≤ b.size → ∃ stop, stop ≤ b.size ∧ (previous.map (·.stop)).getD 0 ≤ stop ∧
        ((b.splitFrom linearize previous splits).map fun v => (b.resolve v).data).flatten =
          (b.store.take stop).drop ((previous.map (·.stop)).getD 0) ∧
        ∀ v, (b.splitFrom linearize previous splits).getLast? = some v → v.stop = stop ∧ 0 < stop
  | [], previous, hle =>
      ⟨_, hle, Nat.le_refl _, by simp [splitFrom], fun v hv => by simp [splitFrom] at hv⟩
  | split :: rest, previous, hle => by
      cases hts : b.timestampAt (split - 1) with
      | none =>
        obtain ⟨stop, h⟩ := splitFrom_data b linearize rest previous hle
        exact ⟨stop, by simpa only [splitFrom, hts] using h⟩
      | some t =>
        by_cases hback : split ≤ ((previous.map (·.stop)).getD 0 : Nat)
        · obtain ⟨stop, h⟩ := splitFrom_data b linearize rest previous hle
          exact ⟨stop, by simpa only [splitFrom, hts, if_pos hback] using h⟩
        · obtain ⟨hpos, hsz⟩ := timestampAt_lt hts
          generalize hchunk : (⟨(previous.map (·.stop)).getD 0, split.toNat,
            linearized linearize previous t⟩ : VirtualChunk) = chunk
          have hstart : chunk.start = (previous.map (·.stop)).getD 0 := by rw [← hchunk]
          have hstop : chunk.stop = split.toNat := by rw [← hchunk]
          have hunfold : b.splitFrom linearize previous (split :: rest) =
              chunk :: b.splitFrom linearize (some chunk) rest := by
            simp only [splitFrom, hts, if_neg hback, ← hchunk]
          obtain ⟨stop, hs, hge, hdata, hlast⟩ := splitFrom_data b linearize rest (some chunk)
            (by simpa [hstop] using hsz)
          have hge' : split.toNat ≤ stop := by simpa [hstop] using hge
          refine ⟨stop, hs, by omega, ?_, fun v hv => ?_⟩
          · simp only [Option.map_some, Option.getD_some, hstop] at hdata
            rw [hunfold, List.map_cons, List.flatten_cons, hdata]
            simp only [resolve, hstart, hstop]
            -- the new view and the rest are two adjacent pieces of one slice
            have hcut : b.store.take split.toNat = (b.store.take stop).take split.toNat := by
              rw [List.take_take, Nat.min_eq_left hge']
            have hsplit : (b.store.take stop).drop split.toNat =
                ((b.store.take stop).drop ((previous.map (·.stop)).getD 0)).drop
                  (split.toNat - (previous.map (·.stop)).getD 0) := by
              rw [List.drop_drop]
              congr 1
              omega
            rw [hcut, hsplit, List.drop_take, List.take_append_drop]
          · rw [hunfold] at hv
            cases hrest : b.splitFrom linearize (some chunk) rest with
            | nil =>
              rw [hrest] at hv hdata
              simp only [List.getLast?_singleton, Option.some.injEq] at hv
              subst hv
              rw [hstop]
              have hlen := congrArg List.length hdata
              simp only [List.map_nil, List.flatten_nil, List.length_nil, Option.map_some,
                Option.getD_some, hstop, List.length_drop, List.length_take] at hlen
              simp only [size] at hs
              omega
            | cons w ws =>
              rw [hrest, List.getLast?_cons_cons] at hv
              rw [hrest] at hlast
              exact hlast v hv

/-- **A drain keeps the invariant**: it takes exactly what its last pop removes. -/
theorem inv_drain (hI : l.Inv) (splits : List Int) (linearize : Bool) :
    (l.step (.drain splits linearize)).Inv := by
  obtain ⟨stop, hle, -, hdata, hlast⟩ := splitFrom_data l.buffer linearize splits none
    (Nat.zero_le _)
  simp only [step, drain, Buffer.split]
  cases hl : (l.buffer.splitFrom linearize none splits).getLast? with
  | none =>
    rw [List.getLast?_eq_none_iff] at hl
    simpa [hl] using hI
  | some v =>
    obtain ⟨hv, hpos⟩ := hlast v hl
    have hne : l.buffer.store ≠ [] := by
      intro h
      simp only [size, h, List.length_nil] at hle
      omega
    obtain ⟨t, hpop⟩ := pop_spec hI (show (0 : Int) < v.stop by omega) hne
    have hmin : min (v.stop : Int).toNat l.buffer.size = stop := by
      rw [hv, Int.toNat_natCast]
      exact Nat.min_eq_left hle
    have hinv := inv_pop hI v.stop
    simp only [Option.map_none, Option.getD_none, List.drop_zero] at hdata
    have htaken : (((l.buffer.splitFrom linearize none splits).map l.buffer.resolve).map
        (·.data)).flatten = ((l.buffer.pop v.stop).1.map (·.data)).getD [] := by
      rw [hpop, hmin, List.map_map]
      exact hdata
    simp only [take] at hinv
    simp only [htaken]
    exact hinv

/-- **Every operation keeps the invariant.** -/
theorem inv_step (hI : l.Inv) (op : Op) : (l.step op).Inv := by
  cases op with
  | push utc input time =>
    simp only [step]
    cases h : l.push utc input time with
    | none => exact hI
    | some l' => exact inv_push hI h
  | extend inputs => exact inv_extend inputs hI
  | pop count => exact inv_pop hI count
  | popTo size granularity =>
    simp only [step, popTo]
    split
    · simpa [take] using hI
    · split
      · exact hI
      · exact inv_pop hI _
  | drain splits linearize => exact inv_drain hI splits linearize
  | clear => exact inv_init
  | read =>
    simp only [step, data]
    split
    · exact hI
    · exact { hI with cached := fun d hd => by simpa using hd.symm }

/-- **The invariant holds along every run.** -/
theorem inv_run (ops : List Op) : (run ops).Inv := by
  have h : ∀ (ops : List Op) (l : Ledger), l.Inv → (ops.foldl step l).Inv := by
    intro ops
    induction ops with
    | nil => exact fun l hI => hI
    | cons op ops ih => exact fun l hI => ih _ (inv_step hI op)
  exact h ops {} inv_init

theorem ascending_pairwise : ∀ (entries : List BufferEntry) (p : Nat), Ascending p entries →
    (entries.map (·.endPosition)).Pairwise (· < ·) ∧ ∀ e ∈ entries, p < e.endPosition
  | [], _, _ => by simp
  | e :: rest, p, h => by
      obtain ⟨hpair, hmem⟩ := ascending_pairwise rest e.endPosition h.2
      refine ⟨?_, fun f hf => ?_⟩
      · rw [List.map_cons, List.pairwise_cons]
        refine ⟨fun q hq => ?_, hpair⟩
        obtain ⟨f, hf, rfl⟩ := List.mem_map.mp hq
        exact hmem f hf
      · rcases List.mem_cons.mp hf with rfl | hf
        · exact h.1
        · exact lt_trans h.1 (hmem f hf)

theorem lastEnd_getLast : ∀ (entries : List BufferEntry) (p : Nat) (e : BufferEntry),
    entries.getLast? = some e → e.endPosition = lastEnd p entries
  | [], _, _, h => by simp at h
  | [f], _, e, h => by
      simp only [List.getLast?_singleton, Option.some.injEq] at h
      subst h
      rfl
  | f :: g :: rest, _, e, h => by
      rw [List.getLast?_cons_cons] at h
      exact lastEnd_getLast (g :: rest) f.endPosition e h

/-- **The buffer loses and duplicates nothing.** After every run of operations: what was popped
    and drained, followed by what remains, is what was pushed since the last `clear`; the entry
    ends rise strictly and stop at `startPosition + size`; and every byte is found under the
    timestamp of the push that brought it. -/
theorem run_conserves (ops : List Op) :
    (run ops).taken ++ (run ops).buffer.data.1 = (run ops).pushed.map Prod.fst ∧
    ((run ops).buffer.entries.map (·.endPosition)).Pairwise (· < ·) ∧
    (∀ e, (run ops).buffer.entries.getLast? = some e →
      e.endPosition = (run ops).buffer.startPosition + (run ops).buffer.size) ∧
    ((run ops).buffer.entries = [] ↔ (run ops).buffer.size = 0) ∧
    ∀ i < (run ops).buffer.size, (run ops).buffer.timestampAt i =
      ((run ops).pushed[(run ops).taken.length + i]?).map Prod.snd := by
  have hI := inv_run ops
  generalize run ops = l at hI ⊢
  have hlen := spread_length _ _ hI.ascending
  rw [hI.ends] at hlen
  refine ⟨?_, (ascending_pairwise _ _ hI.ascending).1, fun e he => ?_, ⟨fun h => ?_, fun h => ?_⟩,
    fun i hi => ?_⟩
  · have hdata : l.buffer.data.1 = l.buffer.store := by
      unfold data
      split
      · rename_i d hd
        exact hI.cached d hd
      · rfl
    rw [hdata, hI.bytes]
  · rw [lastEnd_getLast _ _ e he, hI.ends]
  · have hends := hI.ends
    rw [h] at hends
    simp only [lastEnd] at hends
    omega
  · cases hent : l.buffer.entries with
    | nil => rfl
    | cons e rest =>
      have hasc := hI.ascending
      have hends := hI.ends
      rw [hent] at hasc hends
      have hlt := hasc.1
      have hle := le_lastEnd rest e.endPosition hasc.2
      simp only [lastEnd] at hends
      omega
  · have hbisect := bisectRight_spread l.buffer.entries l.buffer.startPosition i hI.ascending
    have hidx : l.buffer.getEntryIndexAt (i : Int) =
        some (bisectRight l.buffer.entries (l.buffer.startPosition + i)) := by
      unfold getEntryIndexAt
      rw [if_neg (by omega), Int.toNat_natCast]
    unfold timestampAt getEntryAt
    rw [hidx, Option.bind_some, hbisect, hI.stamps, List.getElem?_map, List.getElem?_drop]

/-- Two pushes at one instant share an entry; a pop in its middle and a later push at another
    instant leave every byte its own. -/
example :
    let l := run [.push 0 (.bytes [1, 2]) (some (.datetime 5)),
      .push 0 (.bytes [3]) (some (.datetime 5)), .pop 2, .push 0 (.bytes [4]) (some (.datetime 9))]
    l.taken = [1, 2] ∧ l.buffer.timestampAt 0 = some 5 ∧ l.buffer.timestampAt 1 = some 9 := by
  decide

end Ledger

end Ceres.Connection
