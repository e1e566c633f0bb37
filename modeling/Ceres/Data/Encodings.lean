/-
  File:      Ceres/Data/Encodings.lean
  Subject:   BYTES AS TEXT (`ceres/data/binary.py`, `BytesFromString` and `BytesToString`).

  A field of bytes is read from a string and written as one, by the name of an encoding. Base-64 is
  a case of its own in both directions; any other name is looked up among the text codecs. Of these
  the model embeds latin-1; the others are the parameter `others`.

  * `normalizeEncoding`, `codecName` -- what a name is compared as;
  * `bytesRepr` -- `str` of a bytes object without an encoding: its literal;
  * `bytesFromString`, `bytesToString` -- the two directions;
  * **`bytesFromString_bytesToString_iff`** -- the two are inverse exactly where the name is not base-64;
  * `base64_written_as_literal` -- five bytes that come back as six.
-/
import Ceres.Library.Base64
import Ceres.Library.Wildcard

namespace Ceres.Data.Encodings

open Ceres.Library

/-! ## 1. Names -/

/-- `_normalize_encoding`. Only ASCII letters are lowered: no other character lowers to one of `base64`. -/
def normalizeEncoding (encoding : Text) : Text :=
  (encoding.map Char.toLower).filter fun c => c ≠ '-' && c ≠ '_'

/-- The codec registry's own name: lowered, each run of other characters one `_`, none at either end.
    `gap` says that such a run has been passed since the last character kept. -/
def codecNameFrom : Bool → Bool → Text → Text
  | _, _, [] => []
  | started, gap, c :: rest =>
    if c.isAlphanum || c == '.' then
      if gap && started then '_' :: c.toLower :: codecNameFrom true false rest
      else c.toLower :: codecNameFrom true false rest
    else codecNameFrom started true rest

def codecName (encoding : Text) : Text := codecNameFrom false false encoding

/-- The names of `latin_1` and its aliases. -/
def LATIN_1 : List Text :=
  ["latin_1".toList, "8859".toList, "cp819".toList, "csisolatin1".toList, "ibm819".toList, "iso8859".toList,
    "iso8859_1".toList, "iso_8859_1".toList, "iso_8859_1_1987".toList, "iso_ir_100".toList, "l1".toList,
    "latin".toList, "latin1".toList]

/-- The name is a spelling of base-64. -/
def IsBase64 (encoding : Text) : Prop := normalizeEncoding encoding = "base64".toList

def IsLatin1 (encoding : Text) : Prop := LATIN_1.contains (codecName encoding) = true

instance (encoding : Text) : Decidable (IsBase64 encoding) := inferInstanceAs (Decidable (_ = _))
instance (encoding : Text) : Decidable (IsLatin1 encoding) := inferInstanceAs (Decidable (_ = _))

/-! ## 2. Codecs -/

inductive Error where
  | lookup (encoding : Text)
  | value (text : String)
  | encode (character : Char)
  | decode (byte : UInt8)
  | base64 (fault : Base64.Fault)
  deriving DecidableEq, Repr

/-- A text codec; `errors` names how it treats what it cannot convert. -/
structure Codec where
  encode : Text → Text → Except Error (List UInt8)
  decode : Text → List UInt8 → Except Error Text

/-- What an error mode puts for a character that has no byte; `none` raises. -/
abbrev Handling : Type := Text → Char → Option (List UInt8)

/-- `str.encode('latin-1', errors)`. -/
def latin1Encode (handling : Handling) (errors : Text) : Text → Except Error (List UInt8)
  | [] => .ok []
  | c :: rest =>
    if c.toNat < 256 then (latin1Encode handling errors rest).map (UInt8.ofNat c.toNat :: ·)
    else
      match handling errors c with
      | none => .error (.encode c)
      | some bytes => (latin1Encode handling errors rest).map (bytes ++ ·)

/-- `str(bytes, 'latin-1', errors)`: every byte is a character. -/
def latin1Decode (bytes : List UInt8) : Text := bytes.map fun byte => Char.ofNat byte.toNat

def latin1 (handling : Handling) : Codec where
  encode := latin1Encode handling
  decode := fun _ bytes => .ok (latin1Decode bytes)

section
variable (handling : Handling) (others : Text → Option Codec)

/-- The codec of a name; `others` are the codecs this model leaves out. -/
def codecOf (encoding : Text) : Except Error Codec :=
  if IsLatin1 encoding then .ok (latin1 handling)
  else
    match others (codecName encoding) with
    | none => .error (.lookup encoding)
    | some codec => .ok codec

/-! ## 3. The two directions -/

/-- `str.encode('ascii')` of `b64decode`'s argument. -/
def asciiBytes (text : Text) : Except Error (List UInt8) :=
  if text.all fun c => c.toNat < 128 then .ok (text.map fun c => UInt8.ofNat c.toNat)
  else .error (.value "string argument should contain only ASCII characters")

/-- `base64.b64decode` of a string. -/
def b64decode (value : Text) : Except Error (List UInt8) := do
  let text ← asciiBytes value
  (Base64.decode text).mapError Error.base64

def hexDigitOf (n : Nat) : Char := if n < 10 then Char.ofNat (48 + n) else Char.ofNat (87 + n)

/-- One byte inside a bytes literal. -/
def bytesReprOne (quote byte : UInt8) : Text :=
  if byte = quote ∨ byte = 92 then ['\\', Char.ofNat byte.toNat]
  else if byte = 9 then ['\\', 't']
  else if byte = 10 then ['\\', 'n']
  else if byte = 13 then ['\\', 'r']
  else if byte.toNat < 32 ∨ 127 ≤ byte.toNat then
    ['\\', 'x', hexDigitOf (byte.toNat / 16), hexDigitOf (byte.toNat % 16)]
  else [Char.ofNat byte.toNat]

/-- `str` of a bytes object, which is its literal: in double quotes where only these need no escape. -/
def bytesRepr (bytes : List UInt8) : Text :=
  let quote : UInt8 := if bytes.contains 39 && !bytes.contains 34 then 34 else 39
  'b' :: Char.ofNat quote.toNat :: bytes.flatMap (bytesReprOne quote) ++ [Char.ofNat quote.toNat]

/-- A value that passes through the field. -/
inductive Value where
  | none
  | str (text : Text)
  | bytes (bytes : List UInt8)
  deriving DecidableEq, Repr

/-- `BytesFromString(encoding, errors)`: a string is converted, anything else passed on. -/
def bytesFromString (encoding errors : Text) : Value → Except Error Value
  | .str value =>
    if IsBase64 encoding then (b64decode value).map .bytes
    else do
      let codec ← codecOf handling others encoding
      (codec.encode errors value).map .bytes
  | value => .ok value

/-- `BytesToString(encoding, errors)`. -/
def bytesToString (encoding errors : Text) : Value → Except Error Value
  | .none => .ok .none
  | .str text => .ok (.str text)
  | .bytes value =>
    if IsBase64 encoding then
      -- `str` of the bytes that `b64encode` returns
      .ok (.str (bytesRepr (Base64.encode value)))
    else do
      let codec ← codecOf handling others encoding
      (codec.decode errors value).map .str

/-- What comes back of a value written with one error mode and read with another. -/
def roundTrip (encoding writing reading : Text) (value : Value) : Except Error Value := do
  let text ← bytesToString handling others encoding writing value
  bytesFromString handling others encoding reading text

/-! ## 4. Latin-1 -/

theorem toNat_ofNat_byte (byte : UInt8) : (Char.ofNat byte.toNat).toNat = byte.toNat := by
  have hvalid : byte.toNat.isValidChar := Or.inl (by have := byte.toNat_lt; omega)
  rw [Char.ofNat, dif_pos hvalid]
  rfl

theorem latin1Encode_latin1Decode (errors : Text) : ∀ bytes : List UInt8,
    latin1Encode handling errors (latin1Decode bytes) = .ok bytes
  | [] => rfl
  | byte :: rest => by
      have hbyte : (Char.ofNat byte.toNat).toNat = byte.toNat := toNat_ofNat_byte byte
      have hrest : latin1Encode handling errors (latin1Decode rest) = .ok rest :=
        latin1Encode_latin1Decode errors rest
      have hcons : latin1Decode (byte :: rest) = Char.ofNat byte.toNat :: latin1Decode rest := rfl
      rw [hcons, latin1Encode, hbyte, if_pos (by have := byte.toNat_lt; omega), hrest, UInt8.ofNat_toNat]
      rfl

theorem roundTrip_latin1 {encoding : Text} (hbase64 : ¬ IsBase64 encoding) (hlatin1 : IsLatin1 encoding)
    (writing reading : Text) (bytes : List UInt8) :
    roundTrip handling others encoding writing reading (.bytes bytes) = .ok (.bytes bytes) := by
  have hcodec : codecOf handling others encoding = .ok (latin1 handling) := by
    rw [codecOf, if_pos hlatin1]
  have hwritten : bytesToString handling others encoding writing (.bytes bytes) =
      .ok (.str (latin1Decode bytes)) := by
    rw [bytesToString, if_neg hbase64, hcodec]
    rfl
  have hread : bytesFromString handling others encoding reading (.str (latin1Decode bytes)) =
      (latin1Encode handling reading (latin1Decode bytes)).map .bytes := by
    rw [bytesFromString, if_neg hbase64, hcodec]
    rfl
  rw [roundTrip, hwritten]
  exact hread.trans (by rw [latin1Encode_latin1Decode]; rfl)

/-! ## 5. Base-64 -/

theorem asciiBytes_latin1Decode {bytes : List UInt8} (h : ∀ byte ∈ bytes, byte.toNat < 128) :
    asciiBytes (latin1Decode bytes) = .ok bytes := by
  have hall : ((latin1Decode bytes).all fun c => decide (c.toNat < 128)) = true := by
    refine List.all_eq_true.mpr fun c hc => ?_
    obtain ⟨byte, hmem, rfl⟩ := List.mem_map.mp hc
    rw [toNat_ofNat_byte]
    exact decide_eq_true (h byte hmem)
  have hback : (latin1Decode bytes).map (fun c => UInt8.ofNat c.toNat) = bytes := by
    rw [latin1Decode, List.map_map]
    refine (List.map_congr_left fun byte _ => ?_).trans (List.map_id bytes)
    rw [Function.comp_apply, toNat_ofNat_byte, UInt8.ofNat_toNat]
    rfl
  rw [asciiBytes, if_pos hall, hback]

theorem encode_plain {bytes : List UInt8} {character : UInt8} (h : character ∈ Base64.encode bytes) :
    32 ≤ character.toNat ∧ character.toNat < 127 ∧ character ≠ 39 ∧ character ≠ 92 := by
  rcases Base64.encode_mem h with ⟨value, hvalue, rfl⟩ | rfl
  · exact Base64.digit_plain hvalue
  · decide

/-- The literal of what base-64 writes: its characters between `b'` and `'`. -/
theorem bytesRepr_encode (bytes : List UInt8) :
    bytesRepr (Base64.encode bytes) = latin1Decode (98 :: 39 :: (Base64.encode bytes ++ [39])) := by
  have hquote : (Base64.encode bytes).contains 39 = false := by
    rw [Bool.eq_false_iff]
    intro h
    exact (encode_plain (List.contains_iff_mem.mp h)).2.2.1 rfl
  have hone : ∀ character ∈ Base64.encode bytes, bytesReprOne 39 character = [Char.ofNat character.toNat] := by
    intro character hmem
    obtain ⟨hlow, hhigh, hquoted, hslash⟩ := encode_plain hmem
    have hne : ∀ low : UInt8, low.toNat < 32 → character ≠ low := by
      rintro low hlow' rfl
      omega
    rw [bytesReprOne, if_neg (by rintro (h | h); exacts [hquoted h, hslash h]), if_neg (hne 9 (by decide)),
      if_neg (hne 10 (by decide)), if_neg (hne 13 (by decide)), if_neg (by omega)]
  have hmiddle : (Base64.encode bytes).flatMap (bytesReprOne 39) = latin1Decode (Base64.encode bytes) := by
    rw [latin1Decode, List.map_eq_flatMap]
    exact List.flatMap_congr hone
  rw [bytesRepr, hquote]
  show 'b' :: Char.ofNat (39 : UInt8).toNat :: (Base64.encode bytes).flatMap (bytesReprOne 39) ++ _ = _
  rw [hmiddle]
  simp [latin1Decode]

/-- **What base-64 wrote never comes back**: the `b` of the literal is a digit of its own. -/
theorem roundTrip_base64 {encoding : Text} (h : IsBase64 encoding) (writing reading : Text) (bytes : List UInt8) :
    roundTrip handling others encoding writing reading (.bytes bytes) ≠ .ok (.bytes bytes) := by
  have hwritten : bytesToString handling others encoding writing (.bytes bytes) =
      .ok (.str (latin1Decode (98 :: 39 :: (Base64.encode bytes ++ [39])))) := by
    rw [bytesToString, if_pos h, bytesRepr_encode]
  have hascii : asciiBytes (latin1Decode (98 :: 39 :: (Base64.encode bytes ++ [39]))) =
      .ok (98 :: 39 :: (Base64.encode bytes ++ [39])) := by
    refine asciiBytes_latin1Decode fun byte hbyte => ?_
    simp only [List.mem_cons, List.mem_append, List.not_mem_nil, or_false] at hbyte
    rcases hbyte with rfl | rfl | hbyte | rfl
    · decide
    · decide
    · have := (encode_plain hbyte).2.1
      omega
    · decide
  have hread : bytesFromString handling others encoding reading
      (.str (latin1Decode (98 :: 39 :: (Base64.encode bytes ++ [39])))) =
        ((Base64.decode (98 :: 39 :: (Base64.encode bytes ++ [39]))).mapError Error.base64).map .bytes := by
    rw [bytesFromString, if_pos h, b64decode, hascii]
    rfl
  have hstray : Base64.decode (98 :: 39 :: (Base64.encode bytes ++ [39])) ≠ .ok bytes :=
    @Base64.decodeFrom_stray 27 (by omega) bytes 39 39 (by decide) (by decide)
  have htrip : roundTrip handling others encoding writing reading (.bytes bytes) =
      ((Base64.decode (98 :: 39 :: (Base64.encode bytes ++ [39]))).mapError Error.base64).map .bytes := by
    rw [roundTrip, hwritten, ← hread]
    rfl
  rw [htrip]
  cases hdecoded : Base64.decode (98 :: 39 :: (Base64.encode bytes ++ [39])) with
  | error fault =>
    intro heq
    cases heq
  | ok read =>
    intro heq
    have hsame : read = bytes := Value.bytes.inj (Except.ok.inj heq)
    exact hstray (by rw [hdecoded, hsame])

/-! ## 6. The round trip -/

/-- **Reading inverts writing** for latin-1 and for no spelling of base-64, whatever the bytes. -/
theorem bytesFromString_bytesToString_iff {encoding : Text} (hencoding : IsBase64 encoding ∨ IsLatin1 encoding)
    (writing reading : Text) (bytes : List UInt8) :
    roundTrip handling others encoding writing reading (.bytes bytes) = .ok (.bytes bytes) ↔
      ¬ IsBase64 encoding := by
  constructor
  · intro h hbase64
    exact roundTrip_base64 handling others hbase64 writing reading bytes h
  · intro hbase64
    have hlatin1 : IsLatin1 encoding := hencoding.resolve_left hbase64
    exact roundTrip_latin1 handling others hbase64 hlatin1 writing reading bytes

end

/-- A name of latin-1 in capitals: `[255]` is written as `ÿ` and read back. -/
theorem bytesFromString_bytesToString_latin1 :
    roundTrip (fun _ _ => none) (fun _ => none) "ISO-8859-1".toList "strict".toList "strict".toList
        (.bytes [255]) = .ok (.bytes [255]) ↔ ¬ IsBase64 "ISO-8859-1".toList :=
  bytesFromString_bytesToString_iff _ _ (Or.inr (by decide)) _ _ _

/-- `hello` is written as `b'aGVsbG8='`, and six other bytes are read from that. -/
theorem base64_written_as_literal :
    IsBase64 "base-64".toList ∧
    bytesToString (fun _ _ => none) (fun _ => none) "base-64".toList "strict".toList
        (.bytes [104, 101, 108, 108, 111]) = .ok (.str "b'aGVsbG8='".toList) ∧
    roundTrip (fun _ _ => none) (fun _ => none) "base-64".toList "strict".toList "strict".toList
        (.bytes [104, 101, 108, 108, 111]) = .ok (.bytes [109, 161, 149, 177, 177, 188]) ∧
    [109, 161, 149, 177, 177, 188] ≠ [104, 101, 108, 108, (111 : UInt8)] := by
  decide

end Ceres.Data.Encodings
