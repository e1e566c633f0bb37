/-
  File:      Ceres/Data/Json.lean
  Subject:   JSON VALUES AND OBJECTS, as `serde_json` holds them.

  * `Json` -- a value; a number is an integer or the bits of a float;
  * `Object` -- a map that keeps the order its keys came in, with `get` and `insert`.
-/
import Ceres.Library.Wildcard

namespace Ceres.Data

open Ceres.Library

inductive Json where
  | null
  | boolean (b : Bool)
  | integer (n : Int)
  | float (bits : UInt64)
  | string (s : Text)
  | array (items : List Json)
  | object (fields : List (String × Json))
  deriving Repr

/-- An object's keys and values, in the order the keys came in. -/
abbrev Object : Type := List (String × Json)

namespace Object

def get (object : Object) (key : String) : Option Json :=
  (object.find? fun entry => entry.1 = key).map (·.2)

/-- A key that is there keeps its place. -/
def insert : Object → String → Json → Object
  | [], key, value => [(key, value)]
  | entry :: object, key, value =>
    if entry.1 = key then (key, value) :: object else entry :: insert object key value

@[simp] theorem get_nil (key : String) : get [] key = none := rfl

theorem get_cons (entry : String × Json) (object : Object) (key : String) :
    get (entry :: object) key = if entry.1 = key then some entry.2 else get object key := by
  unfold get
  by_cases h : entry.1 = key <;> simp [h]

end Object

end Ceres.Data
