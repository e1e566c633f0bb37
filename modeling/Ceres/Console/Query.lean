/-
  File:      Ceres/Console/Query.lean
  Subject:   THE FILTER BAR'S QUERY (`console/app/filters/model.ts`).

  A query is a list of conditions and of blocks, which hold conditions and blocks again. Every one of
  them carries an id.

  * `FilterItem`, `FilterQuery` -- the tree;
  * `queryIds` -- every id in it; `erased` -- the tree without them.
-/
import Mathlib.Data.List.Basic

namespace Ceres.Console.Query

/-- How a block joins its children. -/
inductive BlockOp where
  | and_
  | or_
  deriving DecidableEq, Repr

inductive FilterItem (α : Type) where
  | condition (id kind : String) (value : α)
  | block (id : String) (op : BlockOp) (children : List (FilterItem α))
  deriving Repr

/-- The bar's whole query, a root list whose items are implicitly joined by `and`. -/
abbrev FilterQuery (α : Type) : Type := List (FilterItem α)

variable {α : Type}

def FilterItem.id : FilterItem α → String
  | .condition id _ _ => id
  | .block id _ _ => id

mutual

/-- Every id of an item, its own first. -/
def FilterItem.ids : FilterItem α → List String
  | .condition id _ _ => [id]
  | .block id _ children => id :: queryIds children

def queryIds : FilterQuery α → List String
  | [] => []
  | item :: rest => item.ids ++ queryIds rest

end

mutual

/-- An item without its ids. -/
def FilterItem.erased : FilterItem α → FilterItem α
  | .condition _ kind value => .condition "" kind value
  | .block _ op children => .block "" op (erased children)

def erased : FilterQuery α → FilterQuery α
  | [] => []
  | item :: rest => item.erased :: erased rest

end

theorem ids_ne_nil (item : FilterItem α) : item.ids ≠ [] := by
  cases item with
  | condition id kind value => simp [FilterItem.ids]
  | block id op children => simp [FilterItem.ids]

/-- Only the empty query carries no id. -/
theorem queryIds_eq_nil_iff (query : FilterQuery α) : queryIds query = [] ↔ query = [] := by
  cases query with
  | nil => simp [queryIds]
  | cons item rest => simp [queryIds, ids_ne_nil item]

end Ceres.Console.Query
