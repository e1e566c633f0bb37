/-
  File:      Ceres/Console/Boxes.lean
  Subject:   THE BOXES OF AN MP4 (`console/app/mp4.ts`): length-prefixed, laid end to end, nested.

  * `boxes` -- what the generator yields over some bytes: each box, and `cut` at one cut short;
  * `child`, `descend` -- the first box of a type, and the box at the end of a path;
  * `Raw` -- a box as a writer lays it out, with a 32-bit or a 64-bit size;
  * **`boxes_encode`** -- boxes laid end to end are yielded as they were written;
  * `Grown`, **`boxes_grown`** -- what is yielded over some bytes, and over the same bytes with more
    behind them: a box cut short may become one, and only an open-ended box grows.
-/
import Mathlib.Data.List.Forall2
import Ceres.Library.Bytes
import Ceres.Library.Wildcard

namespace Ceres.Console.Mp4

open Ceres.Library

/-! ## 1. The generator -/

structure Box where
  type : Text
  /-- The box's content, past its header. -/
  body : List UInt8
  deriving DecidableEq

/-- What the generator yields: a box, or that one is cut short. -/
inductive Yield where
  | box (box : Box)
  | cut
  deriving DecidableEq

/-- `DataView.getUint32`, big-endian. -/
def getUint32 (bytes : List UInt8) (at' : Nat) : Nat := Endian.big.read 4 (bytes.drop at')

/-- `DataView.getBigUint64`, as a number. -/
def getBigUint64 (bytes : List UInt8) (at' : Nat) : Nat := Endian.big.read 8 (bytes.drop at')

def fromCharCode (bytes : List UInt8) : Text := bytes.map fun byte => Char.ofNat byte.toNat

/-- What one turn of the loop makes of the bytes that are left. -/
inductive Turn where
  | ended
  | cut
  | box (header size : Nat)
  deriving DecidableEq

def sized (bytes : List UInt8) (header size : Nat) : Turn :=
  if size < header then .ended
  else if bytes.length < size then .cut
  else .box header size

def turn (bytes : List UInt8) : Turn :=
  if bytes.length < 8 then (if bytes.isEmpty then .ended else .cut)
  else if getUint32 bytes 0 = 1 then
    if bytes.length < 16 then .cut else sized bytes 16 (getBigUint64 bytes 8)
  -- a size of 0 is the rest of the bytes, as many as have arrived
  else if getUint32 bytes 0 = 0 then sized bytes 8 bytes.length
  else sized bytes 8 (getUint32 bytes 0)

def boxAt (bytes : List UInt8) (header size : Nat) : Box where
  type := fromCharCode ((bytes.drop 4).take 4)
  body := (bytes.take size).drop header

/-- The loop over what is left. Every turn that goes on takes at least 8 bytes. -/
def boxesFrom : Nat → List UInt8 → List Yield
  | 0, _ => []
  | fuel + 1, bytes =>
    match turn bytes with
    | .ended => []
    | .cut => [.cut]
    | .box header size => .box (boxAt bytes header size) :: boxesFrom fuel (bytes.drop size)

/-- The boxes laid end to end in `bytes`, stopping at the first one cut short. -/
def boxes (bytes : List UInt8) : List Yield := boxesFrom bytes.length bytes

def childIn (type : Text) : List Yield → Option (List UInt8)
  | [] => none
  | .cut :: rest => childIn type rest
  | .box box :: rest => if box.type = type then some box.body else childIn type rest

/-- The first complete child of `bytes` with `type`. -/
def child (bytes : List UInt8) (type : Text) : Option (List UInt8) := childIn type (boxes bytes)

/-- The child of `bytes` at the end of `path`. -/
def descend (bytes : List UInt8) : List Text → Option (List UInt8)
  | [] => some bytes
  | type :: path => (child bytes type).bind fun body => descend body path

/-! ## 2. One turn at a time -/

theorem sized_box {bytes : List UInt8} {header size h s : Nat} (hsized : sized bytes header size = .box h s) :
    h = header ∧ s = size ∧ header ≤ size ∧ size ≤ bytes.length := by
  unfold sized at hsized
  split at hsized
  · cases hsized
  · split at hsized
    · cases hsized
    · cases hsized
      omega

theorem turn_box {bytes : List UInt8} {h s : Nat} (hturn : turn bytes = .box h s) :
    8 ≤ h ∧ h ≤ s ∧ s ≤ bytes.length := by
  unfold turn at hturn
  split at hturn
  · split at hturn <;> cases hturn
  · split at hturn
    · split at hturn
      · cases hturn
      · obtain ⟨rfl, rfl, h₁, h₂⟩ := sized_box hturn
        omega
    · split at hturn
      · obtain ⟨rfl, rfl, h₁, h₂⟩ := sized_box hturn
        omega
      · obtain ⟨rfl, rfl, h₁, h₂⟩ := sized_box hturn
        omega

theorem boxesFrom_fuel : ∀ (n m : Nat) (bytes : List UInt8), bytes.length ≤ n → bytes.length ≤ m →
    boxesFrom n bytes = boxesFrom m bytes
  | 0, 0, _, _, _ => rfl
  | 0, m + 1, bytes, hn, _ => by
      have hnil : bytes = [] := List.eq_nil_of_length_eq_zero (Nat.le_zero.mp hn)
      subst hnil
      rfl
  | n + 1, 0, bytes, _, hm => by
      have hnil : bytes = [] := List.eq_nil_of_length_eq_zero (Nat.le_zero.mp hm)
      subst hnil
      rfl
  | n + 1, m + 1, bytes, hn, hm => by
      unfold boxesFrom
      cases hturn : turn bytes with
      | ended => rfl
      | cut => rfl
      | box h s =>
        obtain ⟨h₁, h₂, h₃⟩ := turn_box hturn
        have hlen : (bytes.drop s).length = bytes.length - s := List.length_drop
        simp only [boxesFrom_fuel n m (bytes.drop s) (by omega) (by omega)]

theorem boxes_ended {bytes : List UInt8} (h : turn bytes = .ended) : boxes bytes = [] := by
  unfold boxes
  cases bytes.length with
  | zero => rfl
  | succ n => rw [boxesFrom, h]

theorem boxes_cut {bytes : List UInt8} (h : turn bytes = .cut) : boxes bytes = [.cut] := by
  unfold boxes
  cases hlen : bytes.length with
  | zero =>
    rw [List.eq_nil_of_length_eq_zero hlen] at h
    cases h
  | succ n => rw [boxesFrom, h]

theorem boxes_box {bytes : List UInt8} {h s : Nat} (hturn : turn bytes = .box h s) :
    boxes bytes = .box (boxAt bytes h s) :: boxes (bytes.drop s) := by
  obtain ⟨h₁, h₂, h₃⟩ := turn_box hturn
  obtain ⟨n, hn⟩ : ∃ n, bytes.length = n + 1 := ⟨bytes.length - 1, by omega⟩
  have hlen : (bytes.drop s).length = bytes.length - s := List.length_drop
  unfold boxes
  rw [hn, boxesFrom, hturn]
  simp only
  rw [boxesFrom_fuel n (bytes.drop s).length (bytes.drop s) (by omega) le_rfl]

@[simp] theorem boxes_nil : boxes [] = [] := rfl

/-! ## 3. The boxes alone -/

/-- The boxes among what is yielded. -/
def whole (yields : List Yield) : List Box :=
  yields.filterMap fun
    | .box box => some box
    | .cut => none

@[simp] theorem whole_nil : whole [] = [] := rfl
@[simp] theorem whole_cut (rest : List Yield) : whole (.cut :: rest) = whole rest := rfl
@[simp] theorem whole_box (box : Box) (rest : List Yield) : whole (.box box :: rest) = box :: whole rest := rfl

theorem whole_map (found : List Box) : whole (found.map .box) = found := by
  induction found with
  | nil => rfl
  | cons box found ih => rw [List.map_cons, whole_box, ih]

theorem childIn_eq (type : Text) (yields : List Yield) :
    childIn type yields = ((whole yields).find? fun box => box.type = type).map Box.body := by
  induction yields with
  | nil => rfl
  | cons yielded rest ih =>
    cases yielded with
    | cut => rw [childIn, whole_cut, ih]
    | box box =>
      rw [childIn, whole_box, List.find?_cons]
      by_cases htype : box.type = type
      · simp [htype]
      · simp [htype, ih]

theorem child_eq (bytes : List UInt8) (type : Text) :
    child bytes type = ((whole (boxes bytes)).find? fun box => box.type = type).map Box.body :=
  childIn_eq type _

/-! ## 4. Bytes behind a box -/

theorem read_take_append {width at' s : Nat} {bytes : List UInt8} (hs : s ≤ bytes.length) (hat : at' + width ≤ s)
    (rest : List UInt8) :
    Endian.big.read width ((bytes.take s ++ rest).drop at') = Endian.big.read width (bytes.drop at') := by
  have htake : ((bytes.take s ++ rest).drop at').take width = (bytes.drop at').take width := by
    have hlen : (bytes.take s).length = s := List.length_take_of_le hs
    rw [List.drop_append_of_le_length (by omega),
      List.take_append_of_le_length (by rw [List.length_drop]; omega), List.drop_take, List.take_take]
    congr 1
    omega
  simp only [Endian.read, htake]

/-- The type of the first box, whatever stands behind its header. -/
theorem code_append {bytes : List UInt8} (hlen : 8 ≤ bytes.length) (more : List UInt8) :
    ((bytes ++ more).drop 4).take 4 = (bytes.drop 4).take 4 := by
  rw [List.drop_append_of_le_length (by omega), List.take_append_of_le_length (by rw [List.length_drop]; omega)]

/-- A box whose size is written is found again whatever stands behind it. -/
theorem turn_take_append {bytes : List UInt8} {h s : Nat} (hturn : turn bytes = .box h s)
    (hsize : getUint32 bytes 0 ≠ 0) (rest : List UInt8) : turn (bytes.take s ++ rest) = .box h s := by
  obtain ⟨h₁, h₂, h₃⟩ := turn_box hturn
  have hlen : (bytes.take s ++ rest).length = s + rest.length := by
    rw [List.length_append, List.length_take_of_le h₃]
  have hread : getUint32 (bytes.take s ++ rest) 0 = getUint32 bytes 0 := read_take_append h₃ (by omega) rest
  unfold turn at hturn ⊢
  rw [hread]
  rw [if_neg (by omega)] at hturn
  rw [if_neg (by omega)]
  by_cases hone : getUint32 bytes 0 = 1
  · rw [if_pos hone] at hturn ⊢
    split at hturn
    · cases hturn
    · obtain ⟨rfl, rfl, h₄, h₅⟩ := sized_box hturn
      have hread64 : getBigUint64 (bytes.take (getBigUint64 bytes 8) ++ rest) 8 = getBigUint64 bytes 8 :=
        read_take_append h₃ (by omega) rest
      rw [if_neg (by omega), hread64, sized, if_neg (by omega), if_neg (by omega)]
  · rw [if_neg hone, if_neg hsize] at hturn ⊢
    obtain ⟨rfl, rfl, h₄, h₅⟩ := sized_box hturn
    rw [sized, if_neg (by omega), if_neg (by omega)]

theorem boxAt_take_append {bytes : List UInt8} {h s : Nat} (hturn : turn bytes = .box h s) (rest : List UInt8) :
    boxAt (bytes.take s ++ rest) h s = boxAt bytes h s := by
  obtain ⟨h₁, h₂, h₃⟩ := turn_box hturn
  have hlen : (bytes.take s).length = s := List.length_take_of_le h₃
  have htype : ((bytes.take s ++ rest).drop 4).take 4 = (bytes.drop 4).take 4 := by
    rw [code_append (by omega), List.drop_take, List.take_take]
    congr 1
    omega
  have hbody : (bytes.take s ++ rest).take s = bytes.take s := by
    rw [List.take_append_of_le_length (by omega), List.take_take, Nat.min_self]
  simp only [boxAt, htype, hbody]

theorem boxes_take_append {bytes : List UInt8} {h s : Nat} (hturn : turn bytes = .box h s)
    (hsize : getUint32 bytes 0 ≠ 0) (rest : List UInt8) :
    boxes (bytes.take s ++ rest) = .box (boxAt bytes h s) :: boxes rest := by
  obtain ⟨h₁, h₂, h₃⟩ := turn_box hturn
  have hdrop : (bytes.take s ++ rest).drop s = rest := by
    rw [List.drop_append_of_le_length (by rw [List.length_take_of_le h₃]), List.drop_take, Nat.sub_self,
      List.take_zero, List.nil_append]
  rw [boxes_box (turn_take_append hturn hsize rest), boxAt_take_append hturn, hdrop]

theorem turn_open {bytes : List UInt8} (hlen : 8 ≤ bytes.length) (hsize : getUint32 bytes 0 = 0) :
    turn bytes = .box 8 bytes.length := by
  unfold turn
  rw [if_neg (by omega), if_neg (by omega), if_pos hsize, sized, if_neg (by omega), if_neg (by omega)]

theorem boxes_open {bytes : List UInt8} (hlen : 8 ≤ bytes.length) (hsize : getUint32 bytes 0 = 0) :
    boxes bytes = [.box ⟨fromCharCode ((bytes.drop 4).take 4), bytes.drop 8⟩] := by
  rw [boxes_box (turn_open hlen hsize), List.drop_length, boxes_nil, boxAt, List.take_length]

/-! ## 5. Boxes as they are written -/

/-- A box as a writer lays it out. -/
structure Raw where
  /-- The size is written in 64 bits. -/
  wide : Bool
  code : List UInt8
  body : List UInt8
  four : code.length = 4
  fits : (if wide then 16 else 8) + body.length < if wide then 2 ^ 64 else 2 ^ 32

namespace Raw

def header (raw : Raw) : Nat := if raw.wide then 16 else 8

def size (raw : Raw) : Nat := raw.header + raw.body.length

def type (raw : Raw) : Text := fromCharCode raw.code

def box (raw : Raw) : Box := ⟨raw.type, raw.body⟩

def encode (raw : Raw) : List UInt8 :=
  if raw.wide then Endian.big.write 4 1 ++ raw.code ++ Endian.big.write 8 raw.size ++ raw.body
  else Endian.big.write 4 raw.size ++ raw.code ++ raw.body

theorem length_encode (raw : Raw) : raw.encode.length = raw.size := by
  have hfour := raw.four
  unfold encode size header
  cases raw.wide with
  | true =>
    simp only [if_true, List.length_append, Endian.write_length]
    omega
  | false =>
    simp only [Bool.false_eq_true, if_false, List.length_append, Endian.write_length]
    omega

theorem read_encode (raw : Raw) (rest : List UInt8) :
    getUint32 (raw.encode ++ rest) 0 = (if raw.wide then 1 else raw.size) ∧
      (raw.wide = true → getBigUint64 (raw.encode ++ rest) 8 = raw.size) := by
  have hfour := raw.four
  have hfits := raw.fits
  unfold getUint32 getBigUint64 encode
  cases hwide : raw.wide with
  | true =>
    rw [hwide] at hfits
    have hsize : raw.size < 256 ^ 8 := by
      simp only [size, header, hwide, if_true] at hfits ⊢
      omega
    have hskip : (Endian.big.write 4 1 ++ raw.code).length = 8 := by
      rw [List.length_append, Endian.write_length, hfour]
    simp only [if_true]
    refine ⟨?_, fun _ => ?_⟩
    · rw [List.drop_zero, List.append_assoc, List.append_assoc, List.append_assoc, Endian.read_write]
      rfl
    · rw [List.append_assoc _ raw.body, List.append_assoc _ (Endian.big.write 8 raw.size),
        List.drop_append_of_le_length (by rw [hskip]), List.drop_of_length_le (by rw [hskip]),
        List.nil_append, Endian.read_write, Nat.mod_eq_of_lt hsize]
  | false =>
    rw [hwide] at hfits
    have hsize : raw.size < 256 ^ 4 := by
      simp only [size, header, hwide, Bool.false_eq_true, if_false] at hfits ⊢
      omega
    simp only [Bool.false_eq_true, if_false]
    refine ⟨?_, fun h => by cases h⟩
    rw [List.drop_zero, List.append_assoc, List.append_assoc, Endian.read_write, Nat.mod_eq_of_lt hsize]

theorem turn_encode (raw : Raw) (rest : List UInt8) :
    turn (raw.encode ++ rest) = .box raw.header raw.size ∧ getUint32 (raw.encode ++ rest) 0 ≠ 0 := by
  obtain ⟨h32, h64⟩ := raw.read_encode rest
  have hlen : (raw.encode ++ rest).length = raw.size + rest.length := by
    rw [List.length_append, length_encode]
  have hsize : raw.size = raw.header + raw.body.length := rfl
  unfold turn
  rw [h32]
  cases hwide : raw.wide with
  | true =>
    have hheader : raw.header = 16 := by rw [header, hwide, if_pos rfl]
    rw [if_neg (by omega), if_pos (by rfl), if_neg (by omega), h64 hwide, hheader, sized, if_neg (by omega),
      if_neg (by omega)]
    exact ⟨rfl, Nat.one_ne_zero⟩
  | false =>
    have hheader : raw.header = 8 := by
      rw [header, hwide]
      rfl
    simp only [Bool.false_eq_true, if_false]
    rw [if_neg (by omega), if_neg (by omega), if_neg (by omega), hheader, sized, if_neg (by omega),
      if_neg (by omega)]
    exact ⟨rfl, by omega⟩

theorem boxAt_encode (raw : Raw) (rest : List UInt8) :
    boxAt (raw.encode ++ rest) raw.header raw.size = raw.box := by
  have hfour := raw.four
  have hbytes : (raw.encode ++ rest).take raw.size = raw.encode := by
    rw [← length_encode, List.take_left]
  have hbody : raw.encode.drop raw.header = raw.body := by
    unfold encode header
    cases raw.wide with
    | true =>
      have hhead : (Endian.big.write 4 1 ++ raw.code ++ Endian.big.write 8 raw.size).length = 16 := by
        simp only [List.length_append, Endian.write_length, hfour]
      simp only [if_true]
      rw [← hhead, List.drop_left]
    | false =>
      have hhead : (Endian.big.write 4 raw.size ++ raw.code).length = 8 := by
        simp only [List.length_append, Endian.write_length, hfour]
      simp only [Bool.false_eq_true, if_false]
      rw [← hhead, List.drop_left]
  have hcode : ((raw.encode ++ rest).drop 4).take 4 = raw.code := by
    have hfront : ∃ word after, word.length = 4 ∧ raw.encode ++ rest = word ++ (raw.code ++ after) := by
      unfold encode
      cases raw.wide with
      | true =>
        exact ⟨Endian.big.write 4 1, Endian.big.write 8 raw.size ++ raw.body ++ rest, Endian.write_length .., by
          simp only [if_true, List.append_assoc]⟩
      | false =>
        exact ⟨Endian.big.write 4 raw.size, raw.body ++ rest, Endian.write_length .., by
          simp only [Bool.false_eq_true, if_false, List.append_assoc]⟩
    obtain ⟨word, after, hword, heq⟩ := hfront
    rw [heq, ← hword, List.drop_left, hword, ← hfour, List.take_left]
  simp only [boxAt, hcode, hbytes, hbody]
  rfl

end Raw

/-- Boxes laid end to end. -/
def encodeAll (raws : List Raw) : List UInt8 := raws.flatMap Raw.encode

/-- **Boxes laid end to end are yielded as they were written**, and then what stands behind them. -/
theorem boxes_encode (raws : List Raw) (rest : List UInt8) :
    boxes (encodeAll raws ++ rest) = (raws.map fun raw => .box raw.box) ++ boxes rest := by
  induction raws with
  | nil => rfl
  | cons raw raws ih =>
    have hcons : encodeAll (raw :: raws) ++ rest = raw.encode ++ (encodeAll raws ++ rest) := by
      rw [encodeAll, List.flatMap_cons, List.append_assoc]
      rfl
    have hdrop : (raw.encode ++ (encodeAll raws ++ rest)).drop raw.size = encodeAll raws ++ rest := by
      rw [← Raw.length_encode, List.drop_left]
    rw [hcons, boxes_box (raw.turn_encode _).1, raw.boxAt_encode, hdrop, ih, List.map_cons, List.cons_append]

theorem whole_boxes_encode (raws : List Raw) : whole (boxes (encodeAll raws)) = raws.map Raw.box := by
  have h := boxes_encode raws []
  rw [List.append_nil, boxes_nil, List.append_nil] at h
  rw [h, ← whole_map (raws.map Raw.box), List.map_map]
  rfl

theorem child_encode (raws : List Raw) (type : Text) :
    child (encodeAll raws) type = (raws.find? fun raw => raw.type = type).map Raw.body := by
  rw [child_eq, whole_boxes_encode, List.find?_map, Option.map_map]
  rfl

/-! ## 6. More bytes behind -/

/-- What is yielded before more bytes arrive, and after. -/
inductive Grown : List Yield → List Yield → Prop
  | stops (ys : List Yield) : Grown [] ys
  | cut (ys : List Yield) : Grown [.cut] ys
  | opened (type : Text) (body more : List UInt8) : Grown [.box ⟨type, body⟩] [.box ⟨type, body ++ more⟩]
  | cons (box : Box) {xs ys : List Yield} : Grown xs ys → Grown (.box box :: xs) (.box box :: ys)

theorem getUint32_append {bytes : List UInt8} (hlen : 4 ≤ bytes.length) (more : List UInt8) :
    getUint32 (bytes ++ more) 0 = getUint32 bytes 0 := by
  have h := @read_take_append 4 0 bytes.length bytes le_rfl hlen more
  rwa [List.take_length] at h

theorem boxes_grown_length : ∀ (n : Nat) (bytes more : List UInt8), bytes.length ≤ n →
    Grown (boxes bytes) (boxes (bytes ++ more))
  | 0, bytes, more, hn => by
      rw [List.eq_nil_of_length_eq_zero (Nat.le_zero.mp hn)]
      exact .stops _
  | n + 1, bytes, more, hn => by
      cases hturn : turn bytes with
      | ended => rw [boxes_ended hturn]; exact .stops _
      | cut => rw [boxes_cut hturn]; exact .cut _
      | box h s =>
        obtain ⟨h₁, h₂, h₃⟩ := turn_box hturn
        by_cases hsize : getUint32 bytes 0 = 0
        · have hlen : 8 ≤ bytes.length := by omega
          have hmore : getUint32 (bytes ++ more) 0 = 0 := by rw [getUint32_append (by omega), hsize]
          rw [boxes_open hlen hsize, boxes_open (by rw [List.length_append]; omega) hmore, code_append hlen,
            List.drop_append_of_le_length hlen]
          exact .opened ..
        · have hsplit : bytes ++ more = bytes.take s ++ (bytes.drop s ++ more) := by
            rw [← List.append_assoc, List.take_append_drop]
          rw [boxes_box hturn, hsplit, boxes_take_append hturn hsize]
          exact .cons _ (boxes_grown_length n _ more (by rw [List.length_drop]; omega))

/-- **More bytes behind leave what was yielded before, but for a box cut short and an open-ended one.** -/
theorem boxes_grown (bytes more : List UInt8) : Grown (boxes bytes) (boxes (bytes ++ more)) :=
  boxes_grown_length bytes.length bytes more le_rfl

/-- The same box, or the same with more content. -/
def Larger (box box' : Box) : Prop := box.type = box'.type ∧ box.body <+: box'.body

theorem Larger.refl (box : Box) : Larger box box := ⟨rfl, List.prefix_rfl⟩

theorem Grown.whole {xs ys : List Yield} (h : Grown xs ys) :
    ∃ same rest, ys = same.map .box ++ rest ∧ List.Forall₂ Larger (whole xs) same := by
  induction h with
  | stops ys => exact ⟨[], ys, rfl, .nil⟩
  | cut ys => exact ⟨[], ys, rfl, .nil⟩
  | opened type body more =>
    exact ⟨[⟨type, body ++ more⟩], [], rfl, .cons ⟨rfl, List.prefix_append ..⟩ .nil⟩
  | cons box _ ih =>
    obtain ⟨same, rest, rfl, hsame⟩ := ih
    exact ⟨box :: same, rest, rfl, .cons (.refl box) hsame⟩

theorem find?_larger {boxes₁ boxes₂ : List Box} (h : List.Forall₂ Larger boxes₁ boxes₂) (type : Text) (rest : List Box)
    {box : Box} (hfind : boxes₁.find? (fun box => box.type = type) = some box) :
    ∃ box', (boxes₂ ++ rest).find? (fun box => box.type = type) = some box' ∧ Larger box box' := by
  induction h with
  | nil => cases hfind
  | @cons first first' _ _ hlarger _ ih =>
    rw [List.find?_cons] at hfind
    rw [List.cons_append, List.find?_cons, ← hlarger.1]
    by_cases htype : first.type = type
    · simp only [htype, decide_true] at hfind ⊢
      cases hfind
      exact ⟨first', rfl, hlarger⟩
    · simp only [htype, decide_false] at hfind ⊢
      exact ih hfind

/-- A child found before is found after, with the same content in front. -/
theorem child_append {bytes : List UInt8} {type : Text} {body : List UInt8} (hchild : child bytes type = some body)
    (more : List UInt8) : ∃ body', child (bytes ++ more) type = some body' ∧ body <+: body' := by
  obtain ⟨same, rest, heq, hsame⟩ := (boxes_grown bytes more).whole
  rw [child_eq] at hchild ⊢
  obtain ⟨box, hfind, rfl⟩ := Option.map_eq_some_iff.mp hchild
  have hwhole : whole (boxes (bytes ++ more)) = same ++ whole rest := by
    rw [heq, whole, List.filterMap_append, ← whole, ← whole, whole_map]
  obtain ⟨box', hfind', hlarger⟩ := find?_larger hsame type (whole rest) hfind
  rw [hwhole, hfind']
  exact ⟨box'.body, rfl, hlarger.2⟩

theorem descend_append (path : List Text) : ∀ {bytes body : List UInt8}, descend bytes path = some body →
    ∀ more, ∃ body', descend (bytes ++ more) path = some body' ∧ body <+: body' := by
  induction path with
  | nil =>
    intro bytes body h more
    cases h
    exact ⟨bytes ++ more, rfl, List.prefix_append ..⟩
  | cons type path ih =>
    intro bytes body h more
    obtain ⟨inner, hchild, hdescend⟩ := Option.bind_eq_some_iff.mp h
    obtain ⟨inner', hchild', tail, rfl⟩ := child_append hchild more
    obtain ⟨body', hbody', hstart⟩ := ih hdescend tail
    exact ⟨body', by rw [descend, hchild']; exact hbody', hstart⟩

theorem boxes_first : ∀ (found : List Box) {bytes : List UInt8} {rest : List Yield},
    boxes bytes = found.map .box ++ rest → ∃ front back, bytes = front ++ back ∧ boxes front = found.map .box
  | [], bytes, _, _ => ⟨[], bytes, rfl, rfl⟩
  | box :: found, bytes, rest, h => by
      cases hturn : turn bytes with
      | ended => rw [boxes_ended hturn] at h; cases h
      | cut => rw [boxes_cut hturn] at h; cases h
      | box header s =>
        obtain ⟨h₁, h₂, h₃⟩ := turn_box hturn
        rw [boxes_box hturn, List.map_cons, List.cons_append] at h
        obtain ⟨hbox, htail⟩ := List.cons.inj h
        obtain ⟨front, back, hsplit, hfront⟩ := boxes_first found htail
        refine ⟨bytes.take s ++ front, back, by rw [List.append_assoc, ← hsplit, List.take_append_drop], ?_⟩
        by_cases hsize : getUint32 bytes 0 = 0
        · -- an open-ended box takes all bytes, and none are left for a box behind it
          rw [turn_open (by omega) hsize] at hturn
          cases hturn
          rw [List.drop_length] at hsplit
          obtain ⟨rfl, rfl⟩ := List.append_eq_nil_iff.mp hsplit.symm
          rw [List.take_length, List.append_nil, boxes_box (turn_open (by omega) hsize), hbox, List.drop_length, hfront,
            List.map_cons]
        · rw [boxes_take_append hturn hsize, hbox, hfront, List.map_cons]

end Ceres.Console.Mp4
