/-
  File:      Ceres/Database/Cells.lean
  Subject:   THE VALUES OF A COLUMN, in memory, on the wire and in a database
             (`rust/ceres-entities/src/records.rs`, `entities.rs`, `address.rs`).

  * `Cell`, `Cell.fits` -- a column's value and the family it is of; an address is a valid one, and an
    enumeration's value one of its names;
  * `Cell.wire` -- the JSON form; bytes travel as latin-1 text;
  * `Cell.stored` -- the form a SQLite column holds;
  * **`latin1Encode_decode`** -- bytes come back from the wire.
-/
import Ceres.Data.Json
import Ceres.Database.Selector
import Ceres.Database.Tables
import Ceres.Database.Timestamp

namespace Ceres.Database

open Ceres.Library
open Ceres.Library.Sql
open Ceres.Data

/-! ## 1. Text forms -/

/-- A UUID, as its 128 bits. -/
abbrev Uuid : Type := BitVec 128

/-- A hexadecimal digit. -/
def hexDigit (n : Nat) : Char := if n < 10 then Char.ofNat (48 + n) else Char.ofNat (87 + n)

/-- The digits of a UUID from one on, as many as asked for. -/
def uuidDigits (id : Uuid) (start count : Nat) : Text :=
  (List.range count).map fun i => hexDigit (id.toNat / 16 ^ (31 - (start + i)) % 16)

/-- The hyphenated lower-case form. -/
def uuidText (id : Uuid) : Text :=
  uuidDigits id 0 8 ++ '-' :: uuidDigits id 8 4 ++ '-' :: uuidDigits id 12 4 ++
    '-' :: uuidDigits id 16 4 ++ '-' :: uuidDigits id 20 12

def latin1Decode (bytes : List UInt8) : Text := bytes.map fun byte => Char.ofNat byte.toNat

/-- Encode latin-1 text into bytes, dropping characters outside the range. -/
def latin1Encode (text : Text) : List UInt8 :=
  text.filterMap fun c => if c.toNat < 256 then some (UInt8.ofNat c.toNat) else none

/-- **Bytes come back from their text form.** -/
theorem latin1Encode_decode (bytes : List UInt8) : latin1Encode (latin1Decode bytes) = bytes := by
  have hbyte : ∀ byte : UInt8, (Char.ofNat byte.toNat).toNat = byte.toNat := by
    intro byte
    have hvalid : byte.toNat.isValidChar := .inl (byte.toNat_lt.trans (by decide))
    rw [Char.ofNat, dif_pos hvalid]
    rfl
  unfold latin1Encode latin1Decode
  rw [List.filterMap_map]
  have heq : ((fun c : Char => if c.toNat < 256 then some (UInt8.ofNat c.toNat) else none) ∘
      fun byte : UInt8 => Char.ofNat byte.toNat) = some := by
    funext byte
    simp only [Function.comp_apply, hbyte, if_pos byte.toNat_lt, UInt8.ofNat_toNat]
  rw [heq, List.filterMap_some]

/-! ## 2. Cells -/

/-- The value of one column of one row. -/
inductive Cell where
  | null
  | uuid (id : Uuid)
  | text (t : Text)
  | timestamp (t : Int)
  | bytes (b : List UInt8)
  | boolean (b : Bool)
  | value (j : Json)
  | map (o : Object)

def Cell.fits : FieldFamily → Cell → Bool
  | .uuid, .uuid _ => true
  | .address, .text t | .plainAddress, .text t => validAddress t
  | .timestamp, .timestamp _ => true
  | .text, .text _ | .email, .text _ => true
  | .values admissible, .text t => admissible.contains t
  | .level, .text t => levels.contains t
  | .bytes, .bytes _ => true
  | .json, .map _ => true
  | .boolean, .boolean _ => true
  | .jsonValue, .value _ => true
  | _, _ => false

/-- The serialized form. -/
def Cell.wire : Cell → Json
  | null => .null
  | uuid id => .string (uuidText id)
  | text t => .string t
  | timestamp t => .string (toWire t)
  | bytes b => .string (latin1Decode b)
  | boolean b => .boolean b
  | value j => j
  | map o => .object o

/-- The form a SQLite column holds; `jsonText` is `serde_json`'s text of a value. -/
def Cell.stored (jsonText : Json → Text) : Cell → Value
  | null => .null
  | uuid id => .text (uuidText id)
  | text t => .text t
  | timestamp t => .text (timestampText t)
  | bytes b => .blob b
  | boolean b => .integer b.toInt
  | value j => .text (jsonText j)
  | map o => .text (jsonText (.object o))

end Ceres.Database
