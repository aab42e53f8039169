import Backbone.Core.CrudRoutes
import Backbone.Orm.FilteredReads
import Mathlib.Data.Prod.Lex
import Mathlib.Data.String.Basic

/-!
# Aggregates

An aggregate reduces the rows that the list of the same filters reads, in one statement: a row for each
value of the column it groups by, and one for the total, which comes first. The groups are capped, and
the statement is cut two rows behind the cap.

The database is a parameter as in `Orm.Table`, with the catalog's columns and what it makes of a
reduction. Groups come in the order of the characters of their keys. A statement with a label names a
column that is neither grouped by nor reduced, and the database refuses it.

Reference: `backbone-orm/src/repository.rs` (`aggregate_unattributed`),
`backbone-orm/src/generic_repository.rs` (`run_aggregate_query`) and `backbone-core/src/http.rs` (the
routes).
-/

namespace Backbone.Core

open Text
open Orm (FilteredRepository ListError PaginatedResult PaginationParams)

/-! ## Columns -/

namespace AggregateFn

def label : AggregateFn → String
  | sum => "sum"
  | avg => "avg"
  | min => "min"
  | max => "max"

/-- `SUM` and `AVG` on a text column is a type error. -/
def requiresNumeric : AggregateFn → Bool
  | sum | avg => true
  | min | max => false

end AggregateFn

/-- The reasons of `QueryParamReason` an aggregate gives. -/
inductive AggregateReason where
  | unknownColumn | notNumeric
deriving DecidableEq, Repr

/-- One query parameter an aggregate could not apply. -/
structure AggregateRefusal where
  parameter : String
  reason : AggregateReason
  message : String
deriving DecidableEq, Repr

/-- `parameter` names no column of the resource. -/
def AggregateRefusal.unknownColumn (parameter column : String) : AggregateRefusal where
  parameter := parameter
  reason := .unknownColumn
  message := "`" ++ parameter ++ "`: `" ++ column ++ "` is not a field of this resource"

/-- Why an aggregate fails. -/
inductive AggregateError where
  | refused (refusal : AggregateRefusal)
  | query (err : ListError)
deriving DecidableEq, Repr

/-- The types `SUM` and `AVG` accept. -/
def numericPgTypes : List String :=
  ["numeric", "decimal", "money", "smallint", "int2", "integer", "int", "int4", "bigint", "int8",
    "real", "float4", "double precision", "float8", "smallserial", "serial", "bigserial"]

/-- True for the Postgres types `SUM` and `AVG` accept. -/
def isNumericPgType (pgType : String) : Bool :=
  let t := toAsciiLowercase (trim pgType)
  numericPgTypes.contains (trim ((split t '(').headD t))

/-- A reduction of a column of the table. -/
structure Reduction where
  func : AggregateFn
  column : String
deriving DecidableEq, Repr

/-- The key a reduction's value is answered under. -/
def Reduction.key (r : Reduction) : String := r.func.label ++ ":" ++ r.column

/-- A reduction with its column found in the catalog. -/
def resolveReduction (columns : List (String × String)) (asked : AggregateFn × String) :
    Except AggregateRefusal Reduction :=
  match columns.lookup asked.2 with
  | none => .error (.unknownColumn asked.1.label asked.2)
  | some pgType =>
    if asked.1.requiresNumeric && !isNumericPgType pgType then
      .error {
        parameter := asked.1.label
        reason := .notNumeric
        message := "`" ++ asked.1.label ++ "`: `" ++ asked.2 ++ "` is not a numeric field, and " ++
          asked.1.label ++ " needs one" }
    else .ok ⟨asked.1, asked.2⟩

/-! ## Rows -/

/-- One group's numbers. A group without a key is that of the rows whose column is NULL. -/
structure AggregateGroup where
  key : Option String
  count : ℕ
  values : List (String × Option String)
deriving DecidableEq, Repr

/-- A row of the statement. -/
structure AggregateRow extends AggregateGroup where
  isTotal : Bool
deriving DecidableEq, Repr

/-- Groups plus the overall total. -/
structure AggregateResult where
  groups : List AggregateGroup
  total : AggregateGroup
  /-- More distinct groups exist than the limit allowed. -/
  truncated : Bool
deriving DecidableEq, Repr

/-- What ` ORDER BY __is_total DESC, __count DESC, __group_key` compares. -/
def AggregateRow.rank (row : AggregateRow) : ℕᵒᵈ ×ₗ ℕᵒᵈ ×ₗ WithTop String :=
  toLex (OrderDual.toDual row.isTotal.toNat, toLex (OrderDual.toDual row.count, row.key))

/-- The default ceiling on distinct groups. -/
def defaultGroupLimit : ℕ := 200

/-- The most groups an aggregate answers. -/
def AggregateSpec.limit (spec : AggregateSpec) : ℕ :=
  if spec.groupLimit = 0 then defaultGroupLimit else spec.groupLimit

/-- The rows of the statement that are read: the total, the groups and one more, counted in 64 bits
that wrap. -/
def AggregateSpec.rowLimit (spec : AggregateSpec) : ℕ := (spec.limit + 2) % 2 ^ 64

/-- What is made of the rows of the statement. -/
def readRows (limit : ℕ) (keys : List String) (rows : List AggregateRow) : AggregateResult :=
  let groups := (rows.filter fun row => !row.isTotal).map (·.toAggregateGroup)
  { groups := groups.take limit
    total := ((rows.filter (·.isTotal)).getLast?.map (·.toAggregateGroup)).getD
      ⟨none, 0, keys.map fun key => (key, none)⟩
    truncated := limit < groups.length }

/-! ## The statement -/

/-- A repository with what an aggregate asks of the database. -/
structure AggregateRepository (ρ : Type) (V : String → Type) extends FilteredRepository ρ V where
  /-- `catalog_columns`: the columns of the table with their types. -/
  columns : List (String × String)
  /-- The columns of a table its relations point at. -/
  relatedColumns : String → List (String × String)
  /-- `column::text`. -/
  text : (column : String) → V column → String
  /-- Can the column be grouped by? -/
  groupable : String → Bool
  /-- What a function makes of a column; nothing where the database refuses it. -/
  reduce : AggregateFn → String → List ρ → Option (Option String)

namespace AggregateRepository

/-- The repository over a database with another planner. -/
def withPlanner {ρ : Type} {V : String → Type} (R : AggregateRepository ρ V)
    (planner : String → List String → ℕ) : AggregateRepository ρ V :=
  { R with table := { R.table with estimate := planner } }

variable {ρ : Type} {V : String → Type} [∀ f, LinearOrder (V f)] (R : AggregateRepository ρ V)
  (U : CharTables)

/-- The row of a set of rows. -/
def rowOf (reductions : List Reduction) (isTotal : Bool) (key : Option String) (rows : List ρ) :
    Option AggregateRow :=
  (reductions.mapM fun r => (R.reduce r.func r.column rows).map fun v => (r.key, v)).map fun values =>
    { key := key, count := rows.length, values := values, isTotal := isTotal }

/-- `GROUP BY GROUPING SETS ((column), ())`. -/
def groupingSets (column : String) (reductions : List Reduction) (rows : List ρ) :
    Option (List AggregateRow) := do
  let total ← R.rowOf reductions true none rows
  let groups ← (rows.map (R.table.value · column)).dedup.mapM fun v =>
    R.rowOf reductions false (v.map (R.text column)) (rows.filter fun r => R.table.value r column = v)
  return total :: groups

/-- The rows of a statement that answers. -/
def answered (clause : String × List String) (rows : List ρ → Option (List AggregateRow)) :
    Except ListError (List AggregateRow) := do
  match ← R.table.run clause (rows (R.table.selected clause)) with
  | some rows => return rows
  | none => .error .database

/-- The rows of the grouped statement. -/
def groupedRows (spec : AggregateSpec) (labelled : Bool) (column : String)
    (reductions : List Reduction) (clause : String × List String) :
    Except ListError (List AggregateRow) :=
  if labelled || !R.groupable column || 2 ^ 63 ≤ spec.rowLimit then .error .database
  else R.answered clause fun rows => (R.groupingSets column reductions rows).map fun rows =>
    (rows.insertionSort fun a b => a.rank ≤ b.rank).take spec.rowLimit

/-- The rows of the statement that only totals. -/
def totalRows (reductions : List Reduction) (clause : String × List String) :
    Except ListError (List AggregateRow) :=
  R.answered clause fun rows => (R.rowOf reductions true none rows).map fun row => [row]

/-- Is the group labelled, and by a column there is? -/
def checkLabel (spec : AggregateSpec) (labelTable : Option String) : Except AggregateRefusal Bool :=
  match spec.groupBy, spec.labelField, labelTable with
  | some _, some label, some table =>
    if ((R.relatedColumns table).lookup label).isSome then .ok true
    else .error {
      parameter := "group_label"
      reason := .unknownColumn
      message := "`group_label`: `" ++ label ++
        "` is not a field of the records the groups point at" }
  | _, _, _ => .ok false

/-- The rows an aggregate reads. -/
def statementRows (spec : AggregateSpec) (labelled : Bool) (reductions : List Reduction)
    (clause : String × List String) : Except AggregateError (List AggregateRow) :=
  match spec.groupBy with
  | some field =>
    if (R.columns.lookup field).isNone then .error (.refused (.unknownColumn "group_by" field))
    else (R.groupedRows spec labelled field reductions clause).mapError .query
  | none => (R.totalRows reductions clause).mapError .query

/-- `aggregate_unattributed`, with the table the group column's relation points at. -/
def aggregateUnattributed (spec : AggregateSpec) (labelTable : Option String)
    (filters : List (String × String)) : Except AggregateError AggregateResult := do
  let q ← (R.queryFilter U filters).mapError fun e => .query (.parameter e)
  let reductions ← (spec.reductions.mapM (resolveReduction R.columns)).mapError .refused
  let labelled ← (R.checkLabel spec labelTable).mapError .refused
  let rows ← R.statementRows spec labelled reductions q.buildWhereClause
  return readRows spec.limit (reductions.map (·.key)) rows

/-! ## The routes -/

/-- What a route answers instead of a result. -/
inductive RouteError where
  | refused (violations : List QueryViolation)
  | failed (err : AggregateError)
deriving DecidableEq, Repr

variable (J : Orm.Json) (toUppercase : Char → List Char) (E : EntityMeta) (caller : Caller)

/-- A request that passes the gate. -/
def gated {α : Type} (params : ListQueryParams) (paged : Bool) (answer : Except AggregateError α) :
    Except RouteError α :=
  let refused := queryRefusals U E params paged caller
  if !refused.isEmpty then .error (.refused refused) else answer.mapError .failed

/-- `list_filtered_with_info`. -/
def listFiltered (page limit : ℕ) (filters : List (String × String)) :
    Except AggregateError (PaginatedResult ρ) :=
  (R.listWithFilters U J (.new page limit) filters).mapError .query

/-- `list_handler`, as far as its page goes. -/
def listRoute (params : ListQueryParams) : Except RouteError (PaginatedResult ρ) :=
  let params := normalized params
  gated U E caller params true
    (R.listFiltered U J params.page params.limit (repositoryFilters params))

/-- `count_active_filtered`: the total of a list. -/
def countActiveFiltered (filters : List (String × String)) : Except AggregateError ℕ :=
  (R.listFiltered U J 1 1 filters).map fun page => page.pagination.total

/-- `count_active_handler`. -/
def countRoute (params : ListQueryParams) : Except RouteError ℕ :=
  gated U E caller params false (R.countActiveFiltered U J (repositoryFilters params))

/-- The table of the relation whose foreign key the group column is. -/
def labelTable (spec : AggregateSpec) : Option String :=
  match spec.groupBy, spec.labelField with
  | some group, some _ =>
    (E.relations.find? fun r => r.2.2 == snakeToCamel toUppercase group).map (·.2.1)
  | _, _ => none

/-- `aggregate_handler`. -/
def aggregateRoute (params : ListQueryParams) : Except RouteError AggregateResult :=
  gated U E caller params false (R.aggregateUnattributed U (aggregateSpec params)
    (labelTable toUppercase E (aggregateSpec params)) (aggregateFilters params))

end AggregateRepository

end Backbone.Core
