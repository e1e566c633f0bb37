/-
  File:      Ceres/Database/Tables.lean
  Subject:   THE QUERYABLE TABLES (`ceres-entities/src/filterable.rs`, `records.rs`, `entities.rs`;
             `ceres-database/src/records.rs`, `entities.rs`; `ceres-macros/src/filterable.rs`).

  A table's filter surface is generated from its entity: each field has a family, which decides its
  operators, and text, byte and JSON fields bring operations that match within their content.

  * `FieldFamily`, `FilterField`, `Computed`, `Schema` -- the data the compiler reads;
  * `Table.schema` -- the thirteen tables, with the columns the migrations let be NULL.
-/
import Ceres.Library.Sql

namespace Ceres.Database

open Ceres.Library

/-! ## 1. Fields -/

/-- The filter family of a field's type. -/
inductive FieldFamily where
  | uuid
  | address
  | timestamp
  | text
  | email
  | values (admissible : List Text)
  | level
  | bytes
  | json
  | boolean
  | jsonValue
  | plainAddress
  deriving DecidableEq, Repr

/-- How an operation filter matches within a field's content. -/
inductive OperationKind where
  | contains
  | starts
  | ends
  deriving DecidableEq, Repr

/-- One operation filter on a field. -/
structure FieldOperation where
  key : String
  kind : OperationKind
  insensitive : Bool
  deriving DecidableEq, Repr

/-- One filterable field. -/
structure FilterField where
  key : String
  family : FieldFamily
  operations : List FieldOperation
  deriving DecidableEq, Repr

/-- The shape a computed predicate matches. -/
inductive Shape where
  | internal
  | literal (wanted : Text)
  | present
  deriving DecidableEq, Repr

/-- One filter key with no column of its own, matching a shape of one instead. -/
structure Computed where
  key : String
  column : String
  shape : Shape
  deriving DecidableEq, Repr

/-- What the filter compiler needs to know about one queryable table. -/
structure Schema where
  name : String
  fields : List FilterField
  delegated : List String := []
  order : List String
  computed : List Computed := []
  /-- The columns that may hold NULL. -/
  nullable : List String := []
  deriving DecidableEq, Repr

namespace FieldFamily

/-- Whether the family's own key filters by equality and orders natively. -/
def native : FieldFamily → Bool
  | json => false
  | _ => true

/-- Whether the family takes one value rather than a set of them. -/
def scalar : FieldFamily → Bool
  | boolean => true
  | _ => false

end FieldFamily

/-- The operation filters a family carries. -/
def operationEntries (key : String) (family : FieldFamily) (bare insensitive : Bool) :
    List FieldOperation :=
  let named (variant : String) := if bare then variant else key ++ "_" ++ variant
  match family with
  | .text | .email | .bytes | .json =>
    [{ key := named "contains", kind := .contains, insensitive },
     { key := named "prefix", kind := .starts, insensitive },
     { key := named "suffix", kind := .ends, insensitive }]
  | _ => []

def field (key : String) (family : FieldFamily) : FilterField :=
  { key, family, operations := operationEntries key family false false }

def bareField (key : String) (family : FieldFamily) : FilterField :=
  { key, family, operations := operationEntries key family true false }

/-- The level names in severity order. -/
def levels : List Text :=
  ["debug".toList, "info".toList, "warning".toList, "error".toList, "critical".toList]

/-- The position of a level name in severity order. -/
def levelPosition (value : Text) : Option Nat := levels.findIdx? (· == value)

/-! ## 2. Tables -/

inductive Table where
  | messages
  | particles
  | alerts
  | logs
  | users
  | «variables»
  | settings
  | workspaces
  | workspaceEdits
  | groups
  | groupMemberships
  | userPermissions
  | groupPermissions
  deriving DecidableEq, Repr

def messageDirections : List Text := ["send".toList, "receive".toList]

def permissionTargetTypes : List Text := ["component".toList, "tag".toList, "all".toList]

def grantLevels : List Text := ["view".toList, "operate".toList, "manage".toList]

/-- The columns every record has. -/
def recordFields : List FilterField :=
  [field "id" .uuid, field "address" .address, field "timestamp" .timestamp]

/-- The columns of a permission behind its holder; a target has no operations. -/
def permissionFields : List FilterField :=
  [field "target_type" (.values permissionTargetTypes),
   { key := "target", family := .text, operations := [] },
   field "level" (.values grantLevels)]

def Table.schema : Table → Schema
  | messages =>
    { name := "messages"
      fields := recordFields ++ [field "connection" .text,
        field "direction" (.values messageDirections), bareField "data" .bytes]
      order := ["timestamp"]
      nullable := ["connection"] }
  | particles =>
    { name := "particles"
      fields := recordFields ++ [field "connection" .text, field "type" .text, field "data" .json]
      delegated := ["class"]
      order := ["timestamp"]
      nullable := ["connection"] }
  | alerts =>
    { name := "alerts"
      fields := recordFields ++ [field "level" .level, field "type" .text, field "data" .json]
      order := ["timestamp"] }
  | logs =>
    { name := "logs"
      fields := recordFields ++ [field "level" .level, bareField "content" .text]
      order := ["timestamp"] }
  | users =>
    { name := "users"
      fields := [field "id" .uuid, field "username" .text,
        { key := "email", family := .email, operations := operationEntries "email" .email false true },
        field "admin" .boolean, field "disabled" .boolean]
      order := ["username"] }
  | «variables» =>
    { name := "variables"
      fields := [field "address" .address, field "name" .text, field "value" .jsonValue]
      order := ["address", "name"]
      computed := [{ key := "internal", column := "name", shape := .internal }] }
  | settings =>
    { name := "settings"
      fields := [field "user_id" .uuid, field "name" .text]
      order := ["name"] }
  | workspaces =>
    { name := "workspaces"
      fields := [field "id" .uuid, field "name" .text, field "scope" .plainAddress,
        field "owner_id" .uuid, field "show_when_logged_out" .boolean]
      order := ["name"]
      computed := [
        { key := "placed_on_engine", column := "scope", shape := .literal ['~'] },
        { key := "owned", column := "owner_id", shape := .present }]
      nullable := ["owner_id"] }
  | workspaceEdits =>
    { name := "workspace_edits"
      fields := [field "user_id" .uuid, field "workspace_id" .uuid]
      order := ["user_id", "workspace_id"] }
  | groups =>
    { name := "groups"
      fields := [field "id" .uuid, field "name" .text]
      order := ["name"] }
  | groupMemberships =>
    { name := "group_memberships"
      fields := [field "user_id" .uuid, field "group_id" .uuid]
      order := ["user_id", "group_id"] }
  | userPermissions =>
    { name := "user_permissions"
      fields := field "user_id" .uuid :: permissionFields
      order := ["user_id", "target_type", "target"] }
  | groupPermissions =>
    { name := "group_permissions"
      fields := field "group_id" .uuid :: permissionFields
      order := ["group_id", "target_type", "target"] }

end Ceres.Database
