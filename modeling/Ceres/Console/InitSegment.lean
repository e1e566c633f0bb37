/-
  File:      Ceres/Console/InitSegment.lean
  Subject:   THE INIT SEGMENT OF A FRAGMENTED MP4 (`console/app/mp4.ts`), AS IT IS READ AND AS IT IS DECLARED.

  A `MediaSource` buffer needs the codecs of a stream by name and its length, and both stand in the
  stream's first `moov` box.

  * `readInitSegment` -- what the console makes of the first bytes of a stream;
  * `Segment` -- an init segment as its writer declares it, box by box, with the widths and offsets of
    ISO/IEC 14496-12;
  * **`readInitSegment_segment`** -- its codecs are read, and its length over `Mvhd.readTimescale`: of a
    movie header of version 1 the time scale is read in 64 bits, and takes in half the duration behind it;
  * **`readInitSegment_declared`** -- so the length is read as declared exactly when the header is of
    version 0, or there is nothing to divide.
-/
import Mathlib.Data.Rat.Init
import Mathlib.Data.List.DropRight
import Mathlib.Tactic
import Ceres.Console.Boxes

namespace Ceres.Console.Mp4

open Ceres.Library

/-! ## 1. Codec names -/

def toUpperHex (n : Nat) : Text := (Nat.toDigits 16 n).map Char.toUpper

def hex (byte : UInt8) : Text := List.leftpad 2 '0' (toUpperHex byte.toNat)

/-- `avc1.PPCCLL` from an `avcC` box. -/
def avcCodec (type : Text) (config : List UInt8) : Option Text :=
  if config.length < 4 then none
  else some (type ++ ".".toList ++ hex (config.getD 1 0) ++ hex (config.getD 2 0) ++ hex (config.getD 3 0))

/-- The loop that turns the compatibility flags round, bit by bit. -/
def reverseLoop : Nat → BitVec 32 → BitVec 32 → BitVec 32
  | 0, reversed, _ => reversed
  | bits + 1, reversed, flags => reverseLoop bits (reversed <<< 1 ||| flags &&& 1) (flags >>> 1)

/-- `hvc1.1.6.L120.90` and the like from an `hvcC` box. -/
def hevcCodec (type : Text) (config : List UInt8) : Option Text :=
  if config.length < 13 then none
  else
    let profileByte := (config.getD 1 0).toNat
    let space := ["", "A", "B", "C"].getD (profileByte >>> 6) ""
    let tier := if (profileByte >>> 5) &&& 1 ≠ 0 then "H" else "L"
    let profile := profileByte &&& 0x1f
    let reversed := reverseLoop 32 0 (BitVec.ofNat 32 (getUint32 config 2))
    let constraints := ((config.take 12).drop 6).rdropWhile (· = 0)
    let level := (config.getD 12 0).toNat
    some (List.intercalate ".".toList
      ([type, space.toList ++ Nat.toDigits 10 profile, toUpperHex reversed.toNat,
        tier.toList ++ Nat.toDigits 10 level] ++ constraints.map hex))

/-- The bytes in a sample entry ahead of its child boxes. -/
def visualSampleEntryBytes : Nat := 78
def audioSampleEntryBytes : Nat := 28

def sampleEntryCodec (entry : Box) : Option Text :=
  if entry.type = "avc1".toList ∨ entry.type = "avc3".toList then
    (child (entry.body.drop visualSampleEntryBytes) "avcC".toList).bind (avcCodec entry.type)
  else if entry.type = "hvc1".toList ∨ entry.type = "hev1".toList then
    (child (entry.body.drop visualSampleEntryBytes) "hvcC".toList).bind (hevcCodec entry.type)
  else if entry.type = "mp4a".toList then
    if audioSampleEntryBytes ≤ entry.body.length then some "mp4a.40.2".toList else none
  else none

/-! ## 2. Reading the segment -/

/-- A full box's version and the unsigned integer at an offset, 32 bits in version 0 and 64 in version 1. -/
def versioned (body : List UInt8) (offset₀ offset₁ : Nat) : Option Nat :=
  if body.head? = some 0 then
    if body.length < offset₀ + 4 then none else some (getUint32 body offset₀)
  else if body.head? = some 1 then
    if body.length < offset₁ + 8 then none else some (getBigUint64 body offset₁)
  else none

/-- The length in seconds a fragmented `moov` declares. -/
def declaredDuration (moov : List UInt8) : Option ℚ :=
  match child moov "mvhd".toList with
  | none => none
  | some mvhd =>
    match versioned mvhd 12 20 with
    | none => none
    | some timescale =>
      if timescale = 0 then none
      else
        let length :=
          match descend moov ["mvex".toList, "mehd".toList] with
          | none => versioned mvhd 16 24
          | some mehd => versioned mehd 4 4
        match length with
        | none => none
        | some length => if length = 0 then none else some (length / timescale)

inductive InitSegment where
  /-- The `moov` box has not fully arrived, so more bytes are needed. -/
  | incomplete
  | codecs (codecs : Text) (duration : Option ℚ)
  /-- Not a fragmented MP4 a `MediaSource` takes, or a codec that is not known. -/
  | unknown
  deriving DecidableEq

def maxInitSegmentBytes : Nat := 4 * 1024 * 1024

/-- The codec of a track, from the first of its sample entries. -/
def trakCodec (trak : List UInt8) : Option Text :=
  match descend trak ["mdia".toList, "minf".toList, "stbl".toList, "stsd".toList] with
  | none => none
  | some stsd =>
    match (boxes (stsd.drop 8)).head? with
    | some (.box entry) => sampleEntryCodec entry
    | _ => none

/-- The loop over the tracks; `none` as soon as one has no known codec. -/
def trakCodecs : List Yield → Option (List Text)
  | [] => some []
  | .cut :: rest => trakCodecs rest
  | .box trak :: rest =>
    if trak.type ≠ "trak".toList then trakCodecs rest
    else
      match trakCodec trak.body with
      | none => none
      | some codec => (trakCodecs rest).map fun codecs => codec :: codecs

/-- What the content of the first `moov` box says. -/
def readMoov (body : List UInt8) : InitSegment :=
  if child body "mvex".toList = none then .unknown
  else
    match trakCodecs (boxes body) with
    | none => .unknown
    | some [] => .unknown
    | some codecs => .codecs (List.intercalate ", ".toList codecs) (declaredDuration body)

/-- The loop over the boxes of the stream. -/
def scan (length : Nat) : List Yield → InitSegment
  | [] => if maxInitSegmentBytes < length then .unknown else .incomplete
  | .cut :: _ => if maxInitSegmentBytes < length then .unknown else .incomplete
  | .box box :: rest =>
    if box.type = "moov".toList then readMoov box.body
    else if box.type = "mdat".toList ∨ box.type = "moof".toList then .unknown
    else scan length rest

/-- Read the codecs from the start of a fragmented MP4 stream. -/
def readInitSegment (bytes : List UInt8) : InitSegment := scan bytes.length (boxes bytes)

/-! ## 3. An init segment as its writer declares it -/

def hexDigitUpper (n : Nat) : Char := "0123456789ABCDEF".toList.getD n '0'

/-- A byte as two digits. -/
def hexByte (byte : UInt8) : Text := [hexDigitUpper (byte.toNat / 16), hexDigitUpper (byte.toNat % 16)]

/-- The decoder configuration of an AVC track. -/
structure AvcConfig where
  version : UInt8
  profile : UInt8
  compatibility : UInt8
  level : UInt8
  rest : List UInt8

namespace AvcConfig

def encode (config : AvcConfig) : List UInt8 :=
  config.version :: config.profile :: config.compatibility :: config.level :: config.rest

/-- `avc1.PPCCLL`. -/
def name (config : AvcConfig) (type : Text) : Text :=
  type ++ ".".toList ++ hexByte config.profile ++ hexByte config.compatibility ++ hexByte config.level

end AvcConfig

/-- The decoder configuration of an HEVC track. -/
structure HevcConfig where
  version : UInt8
  space : Fin 4
  highTier : Bool
  profile : Fin 32
  flags : BitVec 32
  constraints : List UInt8
  six : constraints.length = 6
  level : UInt8
  rest : List UInt8

namespace HevcConfig

def profileByte (config : HevcConfig) : UInt8 :=
  UInt8.ofNat (config.space * 64 + (if config.highTier then 32 else 0) + config.profile)

def encode (config : HevcConfig) : List UInt8 :=
  config.version :: config.profileByte ::
    (Endian.big.write 4 config.flags.toNat ++ (config.constraints ++ config.level :: config.rest))

/-- `hvc1.1.6.L120.90`: the profile after its space, the flags in reverse bit order, the level after its
    tier, and the constraint bytes up to the last that is not zero. -/
def name (config : HevcConfig) (type : Text) : Text :=
  List.intercalate ".".toList
    ([type, (["", "A", "B", "C"].getD config.space "").toList ++ Nat.toDigits 10 config.profile,
      toUpperHex config.flags.reverse.toNat,
      (if config.highTier then "H" else "L").toList ++ Nat.toDigits 10 config.level.toNat] ++
      (config.constraints.rdropWhile (· = 0)).map hexByte)

end HevcConfig

/-- The first box of a type among some boxes has this content. -/
def First (raws : List Raw) (type : Text) (body : List UInt8) : Prop :=
  (raws.find? fun raw => raw.type = type).map Raw.body = some body

/-- The codec of a sample entry. AAC goes under the one name browsers decode it by. -/
inductive Names : Raw → Text → Prop
  | avc {entry : Raw} {head : List UInt8} {children : List Raw} {config : AvcConfig} :
      entry.type = "avc1".toList ∨ entry.type = "avc3".toList → head.length = 78 →
      entry.body = head ++ encodeAll children → First children "avcC".toList config.encode →
      Names entry (config.name entry.type)
  | hevc {entry : Raw} {head : List UInt8} {children : List Raw} {config : HevcConfig} :
      entry.type = "hvc1".toList ∨ entry.type = "hev1".toList → head.length = 78 →
      entry.body = head ++ encodeAll children → First children "hvcC".toList config.encode →
      Names entry (config.name entry.type)
  | aac {entry : Raw} {head : List UInt8} {children : List Raw} :
      entry.type = "mp4a".toList → head.length = 28 → entry.body = head ++ encodeAll children →
      Names entry "mp4a.40.2".toList

/-- `inner` is the content of the box at the end of a path, with any boxes around it at each step. -/
def Along : List Text → List UInt8 → List UInt8 → Prop
  | [], content, inner => content = inner
  | type :: path, content, inner =>
    ∃ raws body, content = encodeAll raws ∧ First raws type body ∧ Along path body inner

/-- A track, with the sample entries behind the version, flags and count of its `stsd`. -/
structure Track where
  body : List UInt8
  head : List UInt8
  entry : Raw
  more : List Raw
  codec : Text
  eight : head.length = 8
  path : Along ["mdia".toList, "minf".toList, "stbl".toList, "stsd".toList] body
    (head ++ encodeAll (entry :: more))
  named : Names entry codec

/-- A movie header: creation and modification time, time scale and duration, in either version. -/
inductive Mvhd where
  | version0 (flags : BitVec 24) (creation modification timescale duration : BitVec 32) (rest : List UInt8)
  | version1 (flags : BitVec 24) (creation modification : BitVec 64) (timescale : BitVec 32)
      (duration : BitVec 64) (rest : List UInt8)

namespace Mvhd

def encode : Mvhd → List UInt8
  | version0 flags creation modification timescale duration rest =>
    [0] ++ Endian.big.write 3 flags.toNat ++ Endian.big.write 4 creation.toNat ++
      Endian.big.write 4 modification.toNat ++
      (Endian.big.write 4 timescale.toNat ++ (Endian.big.write 4 duration.toNat ++ rest))
  | version1 flags creation modification timescale duration rest =>
    [1] ++ Endian.big.write 3 flags.toNat ++ Endian.big.write 8 creation.toNat ++
      Endian.big.write 8 modification.toNat ++
      (Endian.big.write 4 timescale.toNat ++ (Endian.big.write 8 duration.toNat ++ rest))

def timescale : Mvhd → Nat
  | version0 _ _ _ timescale _ _ => timescale.toNat
  | version1 _ _ _ timescale _ _ => timescale.toNat

def duration : Mvhd → Nat
  | version0 _ _ _ _ duration _ => duration.toNat
  | version1 _ _ _ _ duration _ => duration.toNat

def IsVersion0 : Mvhd → Prop
  | version0 .. => True
  | version1 .. => False

/-- The time scale the console reads: of a header of version 1, with the upper half of the duration. -/
def readTimescale (mvhd : Mvhd) : Nat :=
  match mvhd with
  | version0 .. => mvhd.timescale
  | version1 .. => mvhd.timescale * 2 ^ 32 + mvhd.duration / 2 ^ 32

end Mvhd

/-- A movie extends header: the length of the fragments too. -/
inductive Mehd where
  | version0 (flags : BitVec 24) (duration : BitVec 32) (rest : List UInt8)
  | version1 (flags : BitVec 24) (duration : BitVec 64) (rest : List UInt8)

namespace Mehd

def encode : Mehd → List UInt8
  | version0 flags duration rest =>
    [0] ++ Endian.big.write 3 flags.toNat ++ (Endian.big.write 4 duration.toNat ++ rest)
  | version1 flags duration rest =>
    [1] ++ Endian.big.write 3 flags.toNat ++ (Endian.big.write 8 duration.toNat ++ rest)

def duration : Mehd → Nat
  | version0 _ duration _ => duration.toNat
  | version1 _ duration _ => duration.toNat

end Mehd

/-- An init segment: any boxes but media and fragments, and then the one `moov`, which holds a header, a
    `mvex` and the tracks among any other boxes. -/
structure Segment where
  before : List Raw
  moov : Raw
  children : List Raw
  mvhd : Mvhd
  mvex : List Raw
  mehd : Option Mehd
  tracks : List Track
  ahead : ∀ raw ∈ before,
    raw.type ≠ "moov".toList ∧ raw.type ≠ "mdat".toList ∧ raw.type ≠ "moof".toList
  is_moov : moov.type = "moov".toList
  content : moov.body = encodeAll children
  has_mvhd : First children "mvhd".toList mvhd.encode
  has_mvex : First children "mvex".toList (encodeAll mvex)
  has_mehd : (mvex.find? fun raw => raw.type = "mehd".toList).map Raw.body = mehd.map Mehd.encode
  has_tracks : (children.filter fun raw => raw.type = "trak".toList).map Raw.body = tracks.map Track.body
  some_track : tracks ≠ []

namespace Segment

def bytes (segment : Segment) : List UInt8 := encodeAll segment.before ++ segment.moov.encode

def codecs (segment : Segment) : Text := List.intercalate ", ".toList (segment.tracks.map Track.codec)

/-- The length in ticks: of the fragments where it is declared, else of the movie. -/
def length (segment : Segment) : Nat := (segment.mehd.map Mehd.duration).getD segment.mvhd.duration

/-- A length over a time scale. -/
def seconds (length timescale : Nat) : Option ℚ :=
  if timescale = 0 ∨ length = 0 then none else some (length / timescale)

/-- The length in seconds the segment declares. -/
def duration (segment : Segment) : Option ℚ := seconds segment.length segment.mvhd.timescale

end Segment

/-! ## 4. Codec names are read as they are declared -/

theorem hex_eq (byte : UInt8) : hex byte = hexByte byte := by
  have htable : ∀ n < 256, hex (UInt8.ofNat n) = hexByte (UInt8.ofNat n) := by decide +kernel
  have hbyte : UInt8.ofNat byte.toNat = byte := UInt8.ofNat_toNat
  rw [← hbyte]
  exact htable byte.toNat byte.toNat_lt

theorem avcCodec_encode (type : Text) (config : AvcConfig) :
    avcCodec type config.encode = some (config.name type) := by
  unfold avcCodec AvcConfig.encode AvcConfig.name
  rw [if_neg (by simp only [List.length_cons]; omega)]
  simp only [List.getD_cons_succ, List.getD_cons_zero, hex_eq]

theorem getLsbD_reverseLoop : ∀ (bits : Nat) (reversed flags : BitVec 32) (i : Nat), i < 32 →
    (reverseLoop bits reversed flags).getLsbD i =
      if i < bits then flags.getLsbD (bits - 1 - i) else reversed.getLsbD (i - bits)
  | 0, reversed, flags, i, _ => by rw [reverseLoop, if_neg (Nat.not_lt_zero i), Nat.sub_zero]
  | bits + 1, reversed, flags, i, hi => by
      rw [reverseLoop, getLsbD_reverseLoop bits _ _ i hi]
      rcases Nat.lt_trichotomy i bits with hlt | heq | hgt
      · have hindex : 1 + (bits - 1 - i) = bits + 1 - 1 - i := by omega
        rw [if_pos hlt, if_pos (by omega), BitVec.getLsbD_ushiftRight, hindex]
      · subst heq
        have hindex : i + 1 - 1 - i = 0 := by omega
        rw [if_neg (by omega), if_pos (by omega), Nat.sub_self, hindex]
        simp
      · have hindex : i - (bits + 1) = i - bits - 1 := by omega
        have hpos : ¬ i - bits < 1 := by omega
        have hone : i - bits ≠ 0 := by omega
        have hin : i - bits < 32 := by omega
        rw [if_neg (by omega), if_neg (by omega), hindex]
        rw [BitVec.getLsbD_or, BitVec.getLsbD_shiftLeft]
        simp [hpos, hone, hin]

theorem reverseLoop_eq (flags : BitVec 32) : reverseLoop 32 0 flags = flags.reverse := by
  refine BitVec.eq_of_getLsbD_eq fun i hi => ?_
  rw [getLsbD_reverseLoop 32 0 flags i hi, if_pos hi, BitVec.getLsbD_reverse, BitVec.getMsbD_eq_getLsbD]
  simp [hi]

theorem profileByte_fields (config : HevcConfig) : config.profileByte.toNat >>> 6 = config.space ∧
      (config.profileByte.toNat >>> 5 &&& 1 ≠ 0 ↔ config.highTier = true) ∧
      config.profileByte.toNat &&& 0x1f = config.profile := by
  have htable : ∀ (space : Fin 4) (highTier : Bool) (profile : Fin 32),
      (UInt8.ofNat (space * 64 + (if highTier then 32 else 0) + profile)).toNat >>> 6 = space ∧
      ((UInt8.ofNat (space * 64 + (if highTier then 32 else 0) + profile)).toNat >>> 5 &&& 1 ≠ 0 ↔
        highTier = true) ∧
      (UInt8.ofNat (space * 64 + (if highTier then 32 else 0) + profile)).toNat &&& 0x1f = profile := by
    decide
  exact htable config.space config.highTier config.profile

theorem hevcCodec_encode (type : Text) (config : HevcConfig) :
    hevcCodec type config.encode = some (config.name type) := by
  obtain ⟨hspace, htier, hprofile⟩ := profileByte_fields config
  have hword : (Endian.big.write 4 config.flags.toNat).length = 4 := Endian.write_length ..
  have hflags : BitVec.ofNat 32 (getUint32 config.encode 2) = config.flags :=
    Endian.big.read_write_bitVec (by norm_num) config.flags _
  have hlength : config.encode.length = 13 + config.rest.length := by
    simp only [HevcConfig.encode, List.length_cons, List.length_append, hword, config.six]
    omega
  have hfront : config.encode = (config.version :: config.profileByte :: Endian.big.write 4 config.flags.toNat) ++
      (config.constraints ++ config.level :: config.rest) := rfl
  have hskip : (config.version :: config.profileByte :: Endian.big.write 4 config.flags.toNat).length = 6 := by
    rw [List.length_cons, List.length_cons, hword]
  have hconstraints : (config.encode.take 12).drop 6 = config.constraints := by
    rw [List.drop_take, hfront, List.drop_left' hskip]
    exact List.take_left' config.six
  have hlevel : config.encode.getD 12 0 = config.level := by
    rw [hfront, List.getD_eq_getElem?_getD, List.getElem?_append_right (by omega), hskip,
      List.getElem?_append_right (by rw [config.six]), config.six]
    rfl
  have hbyte : config.encode.getD 1 0 = config.profileByte := rfl
  have hhex : hex = hexByte := funext hex_eq
  unfold hevcCodec HevcConfig.name
  rw [if_neg (by omega)]
  simp only [hbyte, hlevel, hconstraints, hflags, reverseLoop_eq, hspace, hprofile, htier, hhex]

/-! ## 5. Tracks are read as they are declared -/

theorem child_first {raws : List Raw} {type : Text} {body : List UInt8} (h : First raws type body) :
    child (encodeAll raws) type = some body := (child_encode raws type).trans h

theorem sampleEntryCodec_names {entry : Raw} {codec : Text} (h : Names entry codec) :
    sampleEntryCodec entry.box = some codec := by
  have htype : entry.box.type = entry.type := rfl
  have hbody : entry.box.body = entry.body := rfl
  unfold sampleEntryCodec
  cases h with
  | avc hkind hhead hcontent hconfig =>
    rw [htype, hbody, if_pos hkind, hcontent, visualSampleEntryBytes, List.drop_left' hhead, child_first hconfig]
    exact avcCodec_encode ..
  | hevc hkind hhead hcontent hconfig =>
    have hother : ¬ (entry.type = "avc1".toList ∨ entry.type = "avc3".toList) := by
      rcases hkind with h | h <;> rw [h] <;> decide
    rw [htype, hbody, if_neg hother, if_pos hkind, hcontent, visualSampleEntryBytes, List.drop_left' hhead,
      child_first hconfig]
    exact hevcCodec_encode ..
  | aac hkind hhead hcontent =>
    rw [htype, hbody, hkind, if_neg (by decide), if_neg (by decide), if_pos rfl, hcontent, audioSampleEntryBytes,
      if_pos (by rw [List.length_append]; omega)]

theorem descend_along : ∀ {path : List Text} {content inner : List UInt8}, Along path content inner →
    descend content path = some inner
  | [], _, _, h => congrArg some h
  | type :: path, _, _, h => by
      obtain ⟨raws, body, rfl, hfirst, hrest⟩ := h
      rw [descend, child_first hfirst]
      exact descend_along hrest

theorem trakCodec_track (track : Track) : trakCodec track.body = some track.codec := by
  have hentry : (boxes (encodeAll (track.entry :: track.more))).head? = some (.box track.entry.box) := by
    have h := boxes_encode (track.entry :: track.more) []
    rw [List.append_nil] at h
    rw [h]
    rfl
  unfold trakCodec
  rw [descend_along track.path]
  simp only [List.drop_left' track.eight, hentry]
  exact sampleEntryCodec_names track.named

theorem trakCodecs_tracks : ∀ (yields : List Yield) (tracks : List Track),
    ((whole yields).filter fun box => box.type = "trak".toList).map Box.body = tracks.map Track.body →
    trakCodecs yields = some (tracks.map Track.codec)
  | [], tracks, h => by
      rw [List.map_eq_nil_iff.mp h.symm]
      rfl
  | .cut :: rest, tracks, h => trakCodecs_tracks rest tracks h
  | .box box :: rest, tracks, h => by
      rw [trakCodecs]
      rw [whole_box, List.filter_cons] at h
      by_cases htype : box.type = "trak".toList
      · rw [if_neg (not_not.mpr htype)]
        simp only [htype, decide_true, if_true, List.map_cons] at h
        cases tracks with
        | nil => cases h
        | cons track tracks =>
          obtain ⟨hbody, htail⟩ := List.cons.inj h
          rw [hbody, trakCodec_track]
          simp only [trakCodecs_tracks rest tracks htail, Option.map_some, List.map_cons]
      · rw [if_pos htype]
        simp only [htype, decide_false, Bool.false_eq_true, if_false] at h
        exact trakCodecs_tracks rest tracks h

/-! ## 6. The length -/

theorem getUint32_at (front : List UInt8) (n : BitVec 32) (rest : List UInt8) :
    getUint32 (front ++ (Endian.big.write 4 n.toNat ++ rest)) front.length = n.toNat := by
  rw [getUint32, List.drop_left, Endian.read_write]
  exact Nat.mod_eq_of_lt n.isLt

theorem getBigUint64_at (front : List UInt8) (n : BitVec 64) (rest : List UInt8) :
    getBigUint64 (front ++ (Endian.big.write 8 n.toNat ++ rest)) front.length = n.toNat := by
  rw [getBigUint64, List.drop_left, Endian.read_write]
  exact Nat.mod_eq_of_lt n.isLt

theorem getBigUint64_across (front : List UInt8) (n : BitVec 32) (m : BitVec 64) (rest : List UInt8) :
    getBigUint64 (front ++ (Endian.big.write 4 n.toNat ++ (Endian.big.write 8 m.toNat ++ rest))) front.length =
      n.toNat * 2 ^ 32 + m.toNat / 2 ^ 32 := by
  have hn := n.isLt
  have hm := m.isLt
  have h := Endian.read_across 4 4 n.toNat m.toNat rest
  rw [getBigUint64, List.drop_left]
  rw [show (8 : Nat) = 4 + 4 from rfl, h]
  norm_num at hn hm ⊢
  omega

theorem versioned_zero {body : List UInt8} (h : body.head? = some 0) {offset₀ : Nat} (offset₁ : Nat)
    (hlen : ¬ body.length < offset₀ + 4) : versioned body offset₀ offset₁ = some (getUint32 body offset₀) := by
  rw [versioned, if_pos h, if_neg hlen]

theorem versioned_one {body : List UInt8} (h : body.head? = some 1) (offset₀ : Nat) {offset₁ : Nat}
    (hlen : ¬ body.length < offset₁ + 8) : versioned body offset₀ offset₁ = some (getBigUint64 body offset₁) := by
  rw [versioned, h, if_neg (by decide), if_pos rfl, if_neg hlen]

/-- The length of a movie header is read in the width of its version; its time scale is not. -/
theorem versioned_mvhd (mvhd : Mvhd) :
    versioned mvhd.encode 12 20 = some mvhd.readTimescale ∧ versioned mvhd.encode 16 24 = some mvhd.duration := by
  cases mvhd with
  | version0 flags creation modification timescale duration rest =>
    have hscale := getUint32_at ([0] ++ Endian.big.write 3 flags.toNat ++ Endian.big.write 4 creation.toNat ++
      Endian.big.write 4 modification.toNat) timescale (Endian.big.write 4 duration.toNat ++ rest)
    have hduration := getUint32_at ([0] ++ Endian.big.write 3 flags.toNat ++ Endian.big.write 4 creation.toNat ++
      Endian.big.write 4 modification.toNat ++ Endian.big.write 4 timescale.toNat) duration rest
    rw [List.append_assoc _ _ (Endian.big.write 4 duration.toNat ++ rest)] at hduration
    simp only [List.length_append, List.length_cons, List.length_nil, Endian.write_length] at hscale hduration
    have hlength : (Mvhd.version0 flags creation modification timescale duration rest).encode.length =
        20 + rest.length := by
      simp only [Mvhd.encode, List.length_append, List.length_cons, List.length_nil, Endian.write_length]
      omega
    exact ⟨(versioned_zero rfl 20 (by omega)).trans (congrArg some hscale),
      (versioned_zero rfl 24 (by omega)).trans (congrArg some hduration)⟩
  | version1 flags creation modification timescale duration rest =>
    have hscale := getBigUint64_across ([1] ++ Endian.big.write 3 flags.toNat ++ Endian.big.write 8 creation.toNat ++
      Endian.big.write 8 modification.toNat) timescale duration rest
    have hduration := getBigUint64_at ([1] ++ Endian.big.write 3 flags.toNat ++ Endian.big.write 8 creation.toNat ++
      Endian.big.write 8 modification.toNat ++ Endian.big.write 4 timescale.toNat) duration rest
    rw [List.append_assoc _ _ (Endian.big.write 8 duration.toNat ++ rest)] at hduration
    simp only [List.length_append, List.length_cons, List.length_nil, Endian.write_length] at hscale hduration
    have hlength : (Mvhd.version1 flags creation modification timescale duration rest).encode.length =
        32 + rest.length := by
      simp only [Mvhd.encode, List.length_append, List.length_cons, List.length_nil, Endian.write_length]
      omega
    exact ⟨(versioned_one rfl 12 (by omega)).trans (congrArg some hscale),
      (versioned_one rfl 16 (by omega)).trans (congrArg some hduration)⟩

theorem versioned_mehd (mehd : Mehd) : versioned mehd.encode 4 4 = some mehd.duration := by
  cases mehd with
  | version0 flags duration rest =>
    have hduration := getUint32_at ([0] ++ Endian.big.write 3 flags.toNat) duration rest
    simp only [List.length_append, List.length_cons, List.length_nil, Endian.write_length] at hduration
    refine (versioned_zero rfl 4 ?_).trans (congrArg some hduration)
    simp only [Mehd.encode, List.length_append, List.length_cons, List.length_nil, Endian.write_length]
    omega
  | version1 flags duration rest =>
    have hduration := getBigUint64_at ([1] ++ Endian.big.write 3 flags.toNat) duration rest
    simp only [List.length_append, List.length_cons, List.length_nil, Endian.write_length] at hduration
    refine (versioned_one rfl 4 ?_).trans (congrArg some hduration)
    simp only [Mehd.encode, List.length_append, List.length_cons, List.length_nil, Endian.write_length]
    omega

theorem declaredDuration_segment (segment : Segment) :
    declaredDuration (encodeAll segment.children) = Segment.seconds segment.length segment.mvhd.readTimescale := by
  obtain ⟨hscale, hduration⟩ := versioned_mvhd segment.mvhd
  have hmehd : descend (encodeAll segment.children) ["mvex".toList, "mehd".toList] =
      segment.mehd.map Mehd.encode := by
    rw [descend, child_first segment.has_mvex, Option.bind_some, descend, child_encode, segment.has_mehd]
    cases segment.mehd <;> rfl
  unfold declaredDuration
  rw [child_first segment.has_mvhd, hmehd]
  simp only [hscale, hduration]
  unfold Segment.seconds Segment.length
  by_cases hzero : segment.mvhd.readTimescale = 0
  · rw [if_pos hzero, if_pos (.inl hzero)]
  · rw [if_neg hzero]
    cases segment.mehd with
    | none =>
      simp only [Option.map_none, Option.getD_none, hzero, false_or]
    | some mehd =>
      simp only [Option.map_some, Option.getD_some, versioned_mehd, hzero, false_or]

/-! ## 7. The segment is read -/

theorem readMoov_segment (segment : Segment) : readMoov segment.moov.body =
      .codecs segment.codecs (Segment.seconds segment.length segment.mvhd.readTimescale) := by
  have htracks : ((whole (boxes (encodeAll segment.children))).filter fun box => box.type = "trak".toList).map
      Box.body = segment.tracks.map Track.body := by
    rw [whole_boxes_encode, List.filter_map, List.map_map, ← segment.has_tracks]
    rfl
  unfold readMoov
  rw [segment.content, child_first segment.has_mvex, if_neg (Option.some_ne_none _),
    trakCodecs_tracks _ segment.tracks htracks, declaredDuration_segment]
  cases htrack : segment.tracks with
  | nil => exact absurd htrack segment.some_track
  | cons track tracks =>
    rw [Segment.codecs, htrack]
    rfl

theorem scan_before (length : Nat) (rest : List Yield) : ∀ before : List Raw,
    (∀ raw ∈ before, raw.type ≠ "moov".toList ∧ raw.type ≠ "mdat".toList ∧ raw.type ≠ "moof".toList) →
    scan length ((before.map fun raw => .box raw.box) ++ rest) = scan length rest
  | [], _ => rfl
  | raw :: before, h => by
      obtain ⟨hmoov, hmdat, hmoof⟩ := h raw List.mem_cons_self
      have htype : raw.box.type = raw.type := rfl
      rw [List.map_cons, List.cons_append, scan, htype, if_neg hmoov, if_neg (not_or.mpr ⟨hmdat, hmoof⟩)]
      exact scan_before length rest before fun raw h' => h raw (List.mem_cons_of_mem _ h')

/-- **What is read of an init segment**: its codecs, and its length over the time scale that is read. -/
theorem readInitSegment_segment (segment : Segment) (after : List UInt8) :
    readInitSegment (segment.bytes ++ after) =
      .codecs segment.codecs (Segment.seconds segment.length segment.mvhd.readTimescale) := by
  have hboxes : boxes (segment.bytes ++ after) =
      (segment.before.map fun raw => .box raw.box) ++ (.box segment.moov.box :: boxes after) := by
    have hmoov := boxes_encode [segment.moov] after
    rw [encodeAll, List.flatMap_singleton, List.map_singleton, List.singleton_append] at hmoov
    rw [Segment.bytes, List.append_assoc, boxes_encode, hmoov]
  have htype : segment.moov.box.type = "moov".toList := segment.is_moov
  rw [readInitSegment, hboxes, scan_before _ _ _ segment.ahead, scan, if_pos htype]
  exact readMoov_segment segment

/-- Over two time scales a length is the same only when there is nothing to divide. -/
theorem seconds_eq_iff {length timescale read : Nat} (hle : timescale ≤ read) :
    Segment.seconds length read = Segment.seconds length timescale ↔ read = timescale ∨ length = 0 := by
  unfold Segment.seconds
  by_cases hlength : length = 0
  · rw [if_pos (.inr hlength), if_pos (.inr hlength)]
    exact ⟨fun _ => .inr hlength, fun _ => rfl⟩
  by_cases hread : read = 0
  · have htimescale : timescale = 0 := by omega
    rw [hread, htimescale]
    exact ⟨fun _ => .inl rfl, fun _ => rfl⟩
  rw [if_neg (not_or.mpr ⟨hread, hlength⟩)]
  by_cases htimescale : timescale = 0
  · rw [if_pos (.inl htimescale)]
    refine ⟨fun h => (Option.some_ne_none _ h).elim, fun h => ?_⟩
    omega
  rw [if_neg (not_or.mpr ⟨htimescale, hlength⟩)]
  have hlength' : (length : ℚ) ≠ 0 := Nat.cast_ne_zero.mpr hlength
  have hread' : (read : ℚ) ≠ 0 := Nat.cast_ne_zero.mpr hread
  have htimescale' : (timescale : ℚ) ≠ 0 := Nat.cast_ne_zero.mpr htimescale
  constructor
  · intro h
    have hdiv : (length : ℚ) / read = length / timescale := Option.some.inj h
    have hmul := mul_left_cancel₀ hlength' ((div_eq_div_iff hread' htimescale').mp hdiv)
    exact .inl (Nat.cast_injective hmul.symm)
  · rintro (rfl | h)
    · rfl
    · exact absurd h hlength

theorem readTimescale_eq_iff (mvhd : Mvhd) : mvhd.readTimescale = mvhd.timescale ↔
      mvhd.IsVersion0 ∨ (mvhd.timescale = 0 ∧ mvhd.duration < 2 ^ 32) := by
  cases mvhd with
  | version0 => exact ⟨fun _ => .inl trivial, fun _ => rfl⟩
  | version1 flags creation modification timescale duration rest =>
    simp only [Mvhd.readTimescale, Mvhd.IsVersion0, Mvhd.timescale, Mvhd.duration, false_or]
    constructor
    · intro h
      omega
    · rintro ⟨hzero, hlt⟩
      rw [hzero, Nat.div_eq_of_lt hlt, Nat.zero_mul]

theorem timescale_le_readTimescale (mvhd : Mvhd) : mvhd.timescale ≤ mvhd.readTimescale := by
  cases mvhd with
  | version0 => exact le_rfl
  | version1 =>
    simp only [Mvhd.readTimescale]
    omega

/-- **An init segment is read as its writer declares it** exactly when its movie header is of version 0, or
    its length is 0, or its time scale is 0 and so is the upper half of its duration. -/
theorem readInitSegment_declared (segment : Segment) (after : List UInt8) :
    readInitSegment (segment.bytes ++ after) = .codecs segment.codecs segment.duration ↔
      segment.mvhd.IsVersion0 ∨ segment.length = 0 ∨
        (segment.mvhd.timescale = 0 ∧ segment.mvhd.duration < 2 ^ 32) := by
  rw [readInitSegment_segment, Segment.duration]
  have hinj : ∀ a b : Option ℚ,
      InitSegment.codecs segment.codecs a = InitSegment.codecs segment.codecs b ↔ a = b := fun a b =>
    ⟨fun h => by injection h, fun h => by rw [h]⟩
  rw [hinj, seconds_eq_iff (timescale_le_readTimescale _), readTimescale_eq_iff, or_assoc]
  exact or_congr_right or_comm

/-- A box with a 32-bit size. -/
def narrow (code : List UInt8) (body : List UInt8) (four : code.length = 4) (fits : 8 + body.length < 2 ^ 32) :
    Raw where
  wide := false
  code := code
  body := body
  four := four
  fits := fits

def someHeader : Mvhd := .version1 0 0 0 1000 5000 []

def someEntry : Raw := narrow [0x6d, 0x70, 0x34, 0x61] (List.replicate 28 0) rfl (by decide)
def someStsd : Raw := narrow [0x73, 0x74, 0x73, 0x64] (List.replicate 8 0 ++ encodeAll [someEntry]) rfl (by decide)
def someStbl : Raw := narrow [0x73, 0x74, 0x62, 0x6c] (encodeAll [someStsd]) rfl (by decide)
def someMinf : Raw := narrow [0x6d, 0x69, 0x6e, 0x66] (encodeAll [someStbl]) rfl (by decide)
def someMdia : Raw := narrow [0x6d, 0x64, 0x69, 0x61] (encodeAll [someMinf]) rfl (by decide)
def someTrak : Raw := narrow [0x74, 0x72, 0x61, 0x6b] (encodeAll [someMdia]) rfl (by decide)
def someMvex : Raw := narrow [0x6d, 0x76, 0x65, 0x78] [] rfl (by decide)
def someMvhd : Raw := narrow [0x6d, 0x76, 0x68, 0x64] someHeader.encode rfl (by decide)
def someMoov : Raw := narrow [0x6d, 0x6f, 0x6f, 0x76] (encodeAll [someMvhd, someMvex, someTrak]) rfl
  (by decide +kernel)

/-- A track of AAC. -/
def someTrack : Track where
  body := someTrak.body
  head := List.replicate 8 0
  entry := someEntry
  more := []
  codec := "mp4a.40.2".toList
  eight := rfl
  path := ⟨[someMdia], someMdia.body, rfl, by unfold First; decide, [someMinf], someMinf.body, rfl,
    by unfold First; decide, [someStbl], someStbl.body, rfl, by unfold First; decide, [someStsd], someStsd.body, rfl,
    by unfold First; decide, rfl⟩
  named := @Names.aac someEntry (List.replicate 28 0) [] (by decide) rfl (by decide)

/-- Five seconds at a thousand ticks a second, in a header of version 1. -/
def fiveSeconds : Segment where
  before := []
  moov := someMoov
  children := [someMvhd, someMvex, someTrak]
  mvhd := someHeader
  mvex := []
  mehd := none
  tracks := [someTrack]
  ahead := fun _ h => by cases h
  is_moov := by decide
  content := rfl
  has_mvhd := by unfold First; decide
  has_mvex := by unfold First; decide
  has_mehd := rfl
  has_tracks := by decide
  some_track := List.cons_ne_nil _ _

/-- Five seconds are read as a millionth of one. -/
theorem five_seconds_misread :
    ¬ ∀ (segment : Segment) (after : List UInt8),
      readInitSegment (segment.bytes ++ after) = .codecs segment.codecs segment.duration := by
  intro h
  have hread := (readInitSegment_segment fiveSeconds []).symm.trans (h fiveSeconds [])
  have hseconds : Segment.seconds 5000 (1000 * 2 ^ 32 + 5000 / 2 ^ 32) = Segment.seconds 5000 1000 := by
    injection hread
  rw [seconds_eq_iff (by norm_num)] at hseconds
  norm_num at hseconds

end Ceres.Console.Mp4
