import Backbone.Lib.Keyset
import Backbone.Lib.Sql.Eval
import Backbone.Orm.CursorCodec
import Backbone.Orm.Parser

/-!
# Listing a table

Reference: `backbone-orm/src/repository.rs`.

One list request: the filter's clause, the total order, the page and its cursors. A request without a
cursor reads its page by offset; with `after` or `before` the keyset predicate of the cursor takes the
place of the offset. One row more than the page holds is fetched, so `hasMore` is known without a
count.

The database is a parameter (`Table`): its rows and catalog, the values it sorts by, the texts the
driver decodes a row's columns to, and the meaning of the atoms of a WHERE clause. A statement whose
clause cannot be evaluated fails.
-/

namespace Backbone.Orm

open Sql Keyset

/-! ## Pages -/

/-- A page request. -/
structure PaginationParams where
  page : ℕ
  perPage : ℕ
deriving DecidableEq, Repr

/-- The most rows one page may hold. -/
def maxPerPage : ℕ := 100

/-- A page request, normalized. -/
def PaginationParams.new (page perPage : ℕ) : PaginationParams where
  page := max page 1
  perPage := max 1 (min perPage maxPerPage)

/-- The rows to skip, in 32 bits that saturate. -/
def PaginationParams.offset (p : PaginationParams) : ℕ := min ((p.page - 1) * p.perPage) (2 ^ 32 - 1)

/-- The rows on the page. -/
def PaginationParams.limit (p : PaginationParams) : ℕ := p.perPage

/-- How a total came to be. -/
inductive CountMode where
  | exact
  | estimate
  | none
deriving DecidableEq, Repr

/-- What a list says about its page. -/
structure PaginationInfo where
  page : ℕ
  perPage : ℕ
  total : ℕ
  nextCursor : Option String
  prevCursor : Option String
  hasMore : Bool
  countMode : CountMode
deriving DecidableEq, Repr

/-- A page of rows. -/
structure PaginatedResult (ρ : Type) where
  data : List ρ
  pagination : PaginationInfo
deriving DecidableEq, Repr

/-! ## The order -/

/-- The primary-key column every generated table carries. -/
def keyColumn : String := "id"

/-- The caller's sorts followed by the key, unless it is one of them. -/
def totalOrder (sorts : List SortSpec) : List SortSpec :=
  if sorts.any fun s => s.field == keyColumn then sorts else sorts ++ [⟨keyColumn, .asc⟩]

/-- The columns of ` ORDER BY` with their directions, turned round for a walk backwards. -/
def orderBy (sorts : List SortSpec) (backwards : Bool) : List (Key String) :=
  sorts.map fun s => ⟨s.field, (s.direction == .desc) != backwards⟩

/-! ## The database -/

/-- A column's entry in `information_schema.columns`. -/
structure ColumnInfo where
  dataType : String
  udtName : String
  udtSchema : String
deriving DecidableEq, Repr

/-- The cast of a placeholder compared with a column, nothing where a bare text compares. -/
def castSuffix (c : ColumnInfo) : Option String :=
  match c.dataType with
  | "uuid" => some "uuid"
  | "numeric" => some "numeric"
  | "integer" => some "integer"
  | "smallint" => some "smallint"
  | "bigint" => some "bigint"
  | "boolean" => some "boolean"
  | "date" => some "date"
  | "timestamp with time zone" => some "timestamptz"
  | "timestamp without time zone" => some "timestamp"
  | "USER-DEFINED" =>
    if c.udtName = "" then none
    else some (match c.udtSchema with
      | "" | "public" | "pg_catalog" => c.udtName
      | schema => schema ++ "." ++ c.udtName)
  | _ => none

/-- The type a boundary value is decoded as, before it is printed. -/
inductive Decode where
  | decimal
  | uuid
  | dateTimeUtc
  | i32
  | i64
  | bool
  | naiveDate
  | naiveDateTime
  | string
  /-- A text, without a look at the column's type. -/
  | unchecked
deriving DecidableEq, Repr

/-- The decoder of a column by its cast. -/
def decodeOf (dataType : String) : Decode :=
  match dataType with
  | "numeric" => .decimal
  | "uuid" => .uuid
  | "timestamptz" => .dateTimeUtc
  | "integer" | "smallint" => .i32
  | "bigint" => .i64
  | "boolean" => .bool
  | "date" => .naiveDate
  | "timestamp" => .naiveDateTime
  | "" => .string
  | _ => .unchecked

/-- A table behind its driver. -/
structure Table (ρ : Type) (V : String → Type) where
  rows : List ρ
  /-- The value a row is sorted by; nothing is NULL. -/
  value : ρ → (column : String) → Option (V column)
  /-- The catalog. -/
  column : String → Option ColumnInfo
  /-- A row's column decoded and printed: an error, NULL or a text. -/
  tryGet : Decode → ρ → String → Option (Option String)
  /-- The value of a text, under its cast, in a comparison with a column. -/
  input : (column : String) → Option String → String → Option (V column)
  /-- The meaning of the atoms of a WHERE clause. -/
  meaning : Meaning ρ
  /-- The planner's row estimate for a clause. -/
  estimate : String → List String → ℕ

/-- Why a list request fails. -/
inductive ListError where
  | parameter (e : QueryParamError)
  | database
deriving DecidableEq, Repr

/-- `SELECT * FROM t .. ORDER BY .. LIMIT .. OFFSET ..`. -/
structure DataQuery where
  whereClause : String
  params : List String
  orderBy : List (Key String)
  limit : ℕ
  offset : ℕ

namespace Table

variable {ρ : Type} {V : String → Type} [∀ f, LinearOrder (V f)] (T : Table ρ V) (J : Json)

/-- The rows a clause selects. -/
def selected (clause : String × List String) : List ρ :=
  T.rows.filter (selects T.meaning clause.2 clause.1)

/-- Run a statement with the clause. -/
def run {α : Type} (clause : String × List String) (answer : α) : Except ListError α :=
  if evaluates T.meaning clause.2 clause.1 then .ok answer else .error .database

/-- The rows of a query. -/
def fetchAll (q : DataQuery) : Except ListError (List ρ) :=
  T.run (q.whereClause, q.params) <|
    ((ordered T.value q.orderBy (T.selected (q.whereClause, q.params))).drop q.offset).take q.limit

/-- The exact number of rows the filter matches. -/
def countFilteredRows (clause : String × List String) : Except ListError ℕ :=
  T.run clause (T.selected clause).length

/-- The planner's estimate of it. -/
def estimateFilteredRows (clause : String × List String) : Except ListError ℕ :=
  T.run clause (T.estimate clause.1 clause.2)

/-- The cast of each sort column, from the table's real columns. -/
def sortColumnCasts (sorts : List SortSpec) : List (Option String) :=
  sorts.map fun s => (T.column s.field).bind castSuffix

/-- The text of one boundary value. Page mode may have resolved no casts; the key decodes as a uuid
on its own. -/
def boundaryText (row : ρ) (casts : List (Option String)) (field : String) (i : ℕ) :
    Option String :=
  let dataType := (casts[i]?).join.getD ""
  let dataType := if field = "id" ∧ dataType = "" then "uuid" else dataType
  (T.tryGet (decodeOf dataType) row field).join

/-- One boundary row's cursor. NULL in any sort column yields none: a null has no position. -/
def rowCursor (row : ρ) (sorts : List SortSpec) (casts : List (Option String)) : Option String := do
  let id ← (T.tryGet .uuid row "id").join
  let texts ← sorts.zipIdx.mapM fun s => T.boundaryText row casts s.1.field s.2
  (encodeCursor J sorts (texts.map .string) id).toOption

/-! ## One request -/

/-- Below this many rows an estimated total is counted exactly instead. -/
def exactCountBelow : ℕ := 10000

/-- The refusal of a cursor. -/
def invalidCursor (backwards : Bool) (e : CursorError) : QueryParamError :=
  let parameter := if backwards then "before" else "after"
  let why := match e with
    | .sortMismatch _ => "it was issued for a different sort order"
    | .version _ => "it was issued by an older version"
    | _ => "it is not a position this list issued"
  { parameter := parameter
    reason := .invalidCursor
    message := "`" ++ parameter ++ "` cannot continue this list: " ++ why }

/-- The clause of a request, with the keyset predicate of its cursor. -/
def listClause (q : QueryFilter) (sorts : List SortSpec) (casts : List (Option String))
    (backwards : Bool) : Except ListError (String × List String) :=
  let clause := q.buildWhereClause
  match if backwards then q.cursorBefore else q.cursorAfter with
  | none => .ok clause
  | some text =>
    match decodeCursor J text sorts with
    | .error e => .error (.parameter (invalidCursor backwards e))
    | .ok payload =>
      let keyset := buildKeysetPredicate payload (clause.2.length + 1) casts backwards
      .ok (andKeysetPredicate clause.1 keyset.1, clause.2 ++ keyset.2)

/-- The total of a list, and how it came to be. -/
def listTotal (estimateTotal cursorWalk : Bool) (clause : String × List String) :
    Except ListError (ℕ × CountMode) :=
  if estimateTotal then do
    let estimate ← T.estimateFilteredRows clause
    if estimate ≤ exactCountBelow then return (← T.countFilteredRows clause, .exact)
    else return (estimate, .estimate)
  else if cursorWalk then return (0, .none)
  else return (← T.countFilteredRows clause, .exact)

/-- The page of the fetched rows, with its cursors. -/
def pageOf (pagination : PaginationParams) (sorts : List SortSpec) (casts : List (Option String))
    (backwards : Bool) (total : ℕ × CountMode) (rows : List ρ) : PaginatedResult ρ :=
  let hasMore : Bool := pagination.limit < rows.length
  let page := rows.take pagination.limit
  let page := if backwards then page.reverse else page
  let deterministic := !sorts.isEmpty
  { data := page
    pagination := {
      page := pagination.page
      perPage := pagination.perPage
      total := total.1
      nextCursor := if (hasMore || backwards) && deterministic then
          page.getLast?.bind fun r => T.rowCursor J r sorts casts
        else none
      prevCursor := if !page.isEmpty && deterministic then
          page.head?.bind fun r => T.rowCursor J r sorts casts
        else none
      hasMore := hasMore
      countMode := total.2 } }

/-- The shared list execution: filters, order, paging, and the total. -/
def executeList (pagination : PaginationParams) (q : QueryFilter) :
    Except ListError (PaginatedResult ρ) := do
  let backwards := q.cursorBefore.isSome && q.cursorAfter.isNone
  let cursorWalk := q.cursorAfter.isSome || backwards
  let sorts := totalOrder q.sorts
  let casts := if cursorWalk || sorts.any fun s => s.field != keyColumn then T.sortColumnCasts sorts
    else []
  let clause ← listClause J q sorts casts backwards
  let total ← T.listTotal q.estimateTotal cursorWalk clause
  let rows ← T.fetchAll {
    whereClause := clause.1
    params := clause.2
    orderBy := orderBy sorts backwards
    limit := pagination.limit + 1
    offset := if cursorWalk then 0 else pagination.offset }
  return T.pageOf J pagination sorts casts backwards total rows

end Table

end Backbone.Orm
