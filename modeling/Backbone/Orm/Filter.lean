import Backbone.Lib.Text

/-!
# Query filters

Reference: `backbone-orm/src/filter/{types,condition,query}.rs`.

A list request as the repository runs it: the client's conditions, the search, and the base
conditions repository code adds. `buildWhereClause` assembles the WHERE clause as text, with the
parameters its placeholders are numbered for.
-/

namespace Backbone.Orm

open Text

/-! ## Types -/

/-- Filter operator types. -/
inductive FilterOperator where
  | equal
  | notEqual
  | greaterThan
  | greaterThanOrEqual
  | lessThan
  | lessThanOrEqual
  | like
  | iLike
  | notLike
  | contains
  | notContains
  | startsWith
  | endsWith
  | isIn
  | notIn
  | between
  | notBetween
  | isNull
  | isNotNull
  | or
deriving DecidableEq, Repr

namespace FilterOperator

/-- Parse operator from string. -/
def fromStr (s : String) : Option FilterOperator :=
  match toAsciiLowercase s with
  | "eq" | "where" => some equal
  | "noteq" | "ne" => some notEqual
  | "gt" => some greaterThan
  | "gte" | "gteq" => some greaterThanOrEqual
  | "lt" => some lessThan
  | "lte" | "lteq" => some lessThanOrEqual
  | "like" => some like
  | "ilike" => some iLike
  | "notlike" => some notLike
  | "contain" => some contains
  | "notcontain" => some notContains
  | "startwith" | "startswith" => some startsWith
  | "endwith" | "endswith" => some endsWith
  | "in" => some isIn
  | "notin" => some notIn
  | "between" => some between
  | "notbetween" => some notBetween
  | "isnull" => some isNull
  | "isnotnull" => some isNotNull
  | "or" | "orwhere" => some or
  | _ => none

/-- Get SQL operator string. -/
def asSql : FilterOperator → String
  | equal => "="
  | notEqual => "!="
  | greaterThan => ">"
  | greaterThanOrEqual => ">="
  | lessThan => "<"
  | lessThanOrEqual => "<="
  | like => "LIKE"
  | iLike => "ILIKE"
  | notLike => "NOT LIKE"
  | contains => "LIKE"
  | notContains => "NOT LIKE"
  | startsWith => "LIKE"
  | endsWith => "LIKE"
  | isIn => "IN"
  | notIn => "NOT IN"
  | between => "BETWEEN"
  | notBetween => "NOT BETWEEN"
  | isNull => "IS NULL"
  | isNotNull => "IS NOT NULL"
  | or => "OR"

end FilterOperator

/-- Filter condition value. -/
inductive FilterValue where
  | single (v : String)
  | multiple (vs : List String)
  | null
deriving DecidableEq, Repr

/-- Parse from string (handles comma-separated values). -/
def FilterValue.fromString (s : String) (isArray : Bool) : FilterValue :=
  if isArray then multiple ((split s ',').map trim) else single s

/-- Logical operator for combining conditions. -/
inductive FilterLogical where
  | and
  | or
deriving DecidableEq, Repr

/-- The word between two conditions. -/
def FilterLogical.text : FilterLogical → String
  | and => " AND "
  | or => " OR "

/-- Sort direction. -/
inductive SortDirection where
  | asc
  | desc
deriving DecidableEq, Repr

def SortDirection.fromStr (s : String) : SortDirection :=
  match toAsciiLowercase s with
  | "desc" | "-1" => desc
  | _ => asc

/-- Sort specification. -/
structure SortSpec where
  field : String
  direction : SortDirection
deriving DecidableEq, Repr

/-! ## Conditions -/

/-- A single filter condition. -/
structure FilterCondition where
  field : String
  operator : FilterOperator
  value : FilterValue
  logical : FilterLogical := .and
  columnType : Option String := none
deriving DecidableEq, Repr

namespace FilterCondition

/-- The placeholder numbered `n`. -/
def placeholder (n : ℕ) : String := "$" ++ toString n

/-- `::type`, or nothing without a type. -/
def cast (columnType : Option String) : String :=
  match columnType with
  | some t => "::" ++ t
  | none => ""

/-- Cast each IN-list placeholder when a column type hint is present. -/
def castPlaceholders (placeholders : List String) (columnType : Option String) : String :=
  match columnType with
  | some t => join ", " (placeholders.map (· ++ ("::" ++ t)))
  | none => join ", " placeholders

/-- The IN list's placeholders, from the number `paramIdx` on. -/
def inPlaceholders (value : FilterValue) (paramIdx : ℕ) : List String :=
  match value with
  | .multiple vs => (List.range vs.length).map fun i => placeholder (paramIdx + i)
  | _ => [placeholder paramIdx]

/-- Build SQL WHERE clause for this condition (without logical prefix), with the number the next
placeholder takes. -/
def buildSqlWithoutPrefix (c : FilterCondition) (paramIdx : ℕ) : String × ℕ :=
  match c.operator with
  | .isNull => (c.field ++ " IS NULL", paramIdx)
  | .isNotNull => (c.field ++ " IS NOT NULL", paramIdx)
  | .isIn | .notIn =>
    let placeholders := inPlaceholders c.value paramIdx
    (c.field ++ " " ++ c.operator.asSql ++ " (" ++ castPlaceholders placeholders c.columnType ++ ")",
      paramIdx + placeholders.length)
  | .between | .notBetween =>
    (c.field ++ " " ++ c.operator.asSql ++ " " ++ placeholder paramIdx ++ cast c.columnType ++
        " AND " ++ placeholder (paramIdx + 1) ++ cast c.columnType,
      paramIdx + 2)
  | .contains | .startsWith | .endsWith =>
    (c.field ++ " ILIKE " ++ placeholder paramIdx, paramIdx + 1)
  | .notContains => (c.field ++ " NOT ILIKE " ++ placeholder paramIdx, paramIdx + 1)
  | op =>
    (c.field ++ " " ++ op.asSql ++ " " ++ placeholder paramIdx ++ cast c.columnType, paramIdx + 1)

/-- Get the parameter values for binding. -/
def getParams (c : FilterCondition) : List String :=
  match c.operator with
  | .isNull | .isNotNull => []
  | .isIn | .notIn =>
    match c.value with
    | .multiple vs => vs
    | .single v => [v]
    | .null => []
  | .between | .notBetween =>
    match c.value with
    | .multiple (lo :: hi :: _) => [lo, hi]
    | _ => []
  | .contains | .notContains =>
    match c.value with
    | .single v => ["%" ++ v ++ "%"]
    | .multiple vs => vs.map fun v => "%" ++ v ++ "%"
    | .null => ["%%"]
  | .startsWith =>
    match c.value with
    | .single v => [v ++ "%"]
    | .multiple vs => vs.map fun v => v ++ "%"
    | .null => ["%"]
  | .endsWith =>
    match c.value with
    | .single v => ["%" ++ v]
    | .multiple vs => vs.map fun v => "%" ++ v
    | .null => ["%"]
  | _ =>
    match c.value with
    | .single v => [v]
    | .multiple vs => [vs.head?.getD ""]
    | .null => []

end FilterCondition

/-! ## Queries -/

/-- Complete query filter specification. -/
structure QueryFilter where
  conditions : List FilterCondition := []
  sorts : List SortSpec := []
  search : Option String := none
  searchFields : List String := []
  limit : Option ℕ := none
  offset : Option ℕ := none
  page : Option ℕ := none
  cursorAfter : Option String := none
  cursorBefore : Option String := none
  estimateTotal : Bool := false
  baseConditions : List String := []
deriving DecidableEq, Repr

namespace QueryFilter

def addCondition (q : QueryFilter) (c : FilterCondition) : QueryFilter :=
  { q with conditions := q.conditions ++ [c] }

def addSort (q : QueryFilter) (s : SortSpec) : QueryFilter := { q with sorts := q.sorts ++ [s] }

/-- The base conditions as groups: trimmed, and dropped when empty. -/
def baseGroups (q : QueryFilter) : List String := (q.baseConditions.map trim).filter (· ≠ "")

/-- The term searched for, when a search is active. -/
def activeSearch (q : QueryFilter) : Option String :=
  match q.search with
  | some term => if q.searchFields ≠ [] ∧ term ≠ "" then some term else none
  | none => none

/-- The text that searches one field. -/
def searchSql (field : String) (paramIdx : ℕ) : String :=
  field ++ " ILIKE " ++ FilterCondition.placeholder paramIdx

/-- The search as a group. It comes first, so its placeholders start at 1. -/
def searchGroups (q : QueryFilter) : List String :=
  match q.activeSearch with
  | some _ => [join " OR " (q.searchFields.zipIdx.map fun p => searchSql p.1 (1 + p.2))]
  | none => []

/-- The parameters of the search: the pattern, once for each field. -/
def searchParams (q : QueryFilter) : List String :=
  match q.activeSearch with
  | some term => q.searchFields.map fun _ => "%" ++ term ++ "%"
  | none => []

/-- The caller's conditions, their parameters and the number the next placeholder takes. -/
structure UserSql where
  user : String
  params : List String
  paramIdx : ℕ
deriving DecidableEq, Repr

/-- One of the caller's conditions, chained to those before it. -/
def UserSql.add (u : UserSql) (c : FilterCondition) : UserSql :=
  let sql := c.buildSqlWithoutPrefix u.paramIdx
  { user := if u.user = "" then sql.1 else u.user ++ c.logical.text ++ sql.1
    params := u.params ++ c.getParams
    paramIdx := sql.2 }

/-- The loop over the caller's conditions, after the search. -/
def userSql (q : QueryFilter) : UserSql :=
  q.conditions.foldl UserSql.add ⟨"", q.searchParams, 1 + q.searchParams.length⟩

/-- The groups of the clause, in the order they are emitted. -/
def groups (q : QueryFilter) : List String :=
  q.baseGroups ++ q.searchGroups ++ (if q.userSql.user = "" then [] else [q.userSql.user])

/-- The clause a list of groups makes. -/
def whereOf : List String → String
  | [] => ""
  | [g] => " WHERE " ++ g
  | gs => " WHERE " ++ join " AND " (gs.map fun g => "(" ++ g ++ ")")

/-- Build the complete WHERE clause, and the parameters its placeholders are numbered for. -/
def buildWhereClause (q : QueryFilter) : String × List String := (whereOf q.groups, q.userSql.params)

end QueryFilter

end Backbone.Orm
