import Backbone.Lib.Except
import Backbone.Orm.Filter

/-!
# Parsing a request's filters

Reference: `backbone-orm/src/filter/{parser,validation,error}.rs`.

`parseFilters` turns the query parameters of a request into a `QueryFilter`. The parameters arrive
in a hash map: the model takes them as a list, so that every order in which the map may be walked is
some list. The loop's body is `parseParam`, a step on the filter and the OR conditions held back for
the end.
-/

namespace Backbone.Orm

open Text

/-! ## Refusals -/

/-- Why a query parameter was refused, as far as the parser refuses. -/
inductive QueryParamReason where
  | unknownOperator
  | invalidFieldName
  | notANumber
  | invalidCursor
deriving DecidableEq, Repr

/-- One query parameter that could not be applied. -/
structure QueryParamError where
  parameter : String
  reason : QueryParamReason
  message : String
deriving DecidableEq, Repr

/-- A client's value, cut so a very long one cannot flood the answer. -/
def clip (value : String) : String :=
  if value.toList.length ≤ 40 then value else String.ofList (value.toList.take 40) ++ "…"

/-- `parameter` is not a whole, non-negative number. -/
def QueryParamError.ofNotANumber (parameter value : String) : QueryParamError where
  parameter := parameter
  reason := .notANumber
  message := "`" ++ parameter ++ "` must be a whole number of zero or more, not `" ++ clip value ++
    "`"

/-- The operator keywords a `field[operator]` filter accepts, as the refusal of an unknown one
lists them. -/
def operatorKeywords : String :=
  "eq, ne, gt, gte, lt, lte, like, ilike, notlike, contain, notcontain, startwith, endwith, in, " ++
    "notin, between, notbetween, isnull, isnotnull, or"

/-! ## Field names -/

variable (U : CharTables)

/-- The loop of `to_snake_case`; `first` until the first character is past. -/
def snakeFrom (first : Bool) : List Char → List Char
  | [] => []
  | c :: cs =>
    (if U.isUppercase c && !first then ['_'] else []) ++ U.lowerFirst c :: snakeFrom false cs

/-- Convert PascalCase or camelCase string to snake_case. -/
def toSnakeCase (s : String) : String := String.ofList (snakeFrom U true s.toList)

/-- The texts no field name may hold. -/
def dangerousPatterns : List String :=
  ["--", "/*", ";", "drop ", "delete ", "truncate ", "update ", "insert ", "exec ", "execute ",
    "script>"]

/-- Sanitize a field name for SQL identifier use. -/
def sanitizeFieldName (field : String) : Option String :=
  if field = "" then none
  else if startsWith field "__" then none
  else if !field.toList.all fun c => U.isAlphanumeric c || c == '_' then none
  else if dangerousPatterns.any (containsText (U.lower field)) then none
  else some (toSnakeCase U field)

/-- `name` as a field name, or the refusal of the parameter `parameter` that carries it. -/
def fieldOf (name parameter : String) : Except QueryParamError String :=
  match sanitizeFieldName U name with
  | some field => .ok field
  | none => .error {
      parameter := parameter
      reason := .invalidFieldName
      message := "`" ++ parameter ++
        "` does not name a field: field names are letters, digits and underscores" }

/-- A paging value as a whole, non-negative number, or the refusal of its parameter. -/
def countOf (parameter value : String) : Except QueryParamError ℕ :=
  match parseU32 (trim value) with
  | some n => .ok n
  | none => .error (.ofNotANumber parameter value)

/-- Validate a field name against an allow-list; without one every field passes. -/
def allows (allowedFields : Option (List String)) (field : String) : Bool :=
  match allowedFields with
  | some allowed => allowed.contains field
  | none => true

/-! ## Values -/

/-- Built-in PostgreSQL types that should NOT have their values normalized. -/
def builtinPgTypes : List String :=
  ["uuid", "numeric", "decimal", "integer", "int", "int4", "int8", "bigint", "smallint", "int2",
    "real", "float", "float4", "float8", "double precision", "boolean", "bool", "text", "varchar",
    "char", "timestamp", "timestamptz", "date", "time", "timetz", "interval", "jsonb", "json",
    "bytea", "inet", "cidr", "macaddr"]

/-- Check if a column type is a custom enum (not a built-in PostgreSQL type). -/
def isCustomEnumType (colType : String) : Bool := !builtinPgTypes.contains (U.lower colType)

/-- Normalize a filter value for custom enum types (PascalCase → snake_case). -/
def normalizeEnumValue (value : String) : String :=
  if contains value ',' then
    join "," ((split value ',').map fun v => toSnakeCase U (trim v))
  else toSnakeCase U value

/-- Audit-metadata timestamp fields that live inside the `metadata` JSONB column. -/
def auditMetadataFields : List String := ["created_at", "updated_at", "deleted_at"]

/-- If `field` is one of the audit-metadata timestamps, the SQL expression that reads it from the
`metadata` JSONB column with a timestamptz cast. -/
def auditMetadataSqlExpr (field : String) : Option String :=
  if field ∈ auditMetadataFields then some ("(metadata->>'" ++ field ++ "')::timestamptz") else none

/-- True for a key in the framework's internal `__` namespace. -/
def isInternalKey (key : String) : Bool := startsWith (trimStart key) "__"

/-- The column types by field name. -/
abbrev ColumnTypes := List (String × String)

/-- The value of a filter on `field`, normalized when the column is of a custom enum type. -/
def filterValue (columnTypes : ColumnTypes) (field value : String) : String :=
  match columnTypes.lookup field with
  | some colType => if isCustomEnumType U colType then normalizeEnumValue U value else value
  | none => value

/-- The SQL of a filtered or sorted field. -/
def fieldSql (field : String) : String := (auditMetadataSqlExpr field).getD field

/-- The cast of a filter on `field`. -/
def filterCast (columnTypes : ColumnTypes) (field : String) : Option String :=
  if (auditMetadataSqlExpr field).isSome then some "timestamptz" else columnTypes.lookup field

/-- The condition of a filter on `field`: enum values are normalized, audit timestamps are read from
`metadata`, and the placeholder is cast to the column's type. -/
def filterCondition (columnTypes : ColumnTypes) (field value : String) (op : FilterOperator)
    (isArray : Bool) : FilterCondition where
  field := fieldSql field
  operator := op
  value := .fromString (filterValue U columnTypes field value) isArray
  columnType := filterCast columnTypes field

/-- The condition of `field[or]`. It compares like `eq`, but an audit timestamp is not rewritten. -/
def orCondition (columnTypes : ColumnTypes) (field value : String) : FilterCondition where
  field := field
  operator := .equal
  value := .fromString (filterValue U columnTypes field value) false
  logical := .or
  columnType := columnTypes.lookup field

/-- The operators whose value is a comma-separated list. -/
def listOperators : List FilterOperator := [.isIn, .notIn, .between, .notBetween]

/-! ## The loop -/

/-- What the loop has gathered: the filter, and the OR conditions to be added at the end. -/
structure Parsed where
  filter : QueryFilter := {}
  orConditions : List FilterCondition := []
deriving DecidableEq, Repr

/-- A sort on `field`, unless the allow-list refuses it. -/
def Parsed.sortBy (p : Parsed) (allowedFields : Option (List String)) (field sql : String)
    (direction : SortDirection) : Parsed :=
  if allows allowedFields field then { p with filter := p.filter.addSort ⟨sql, direction⟩ } else p

/-- The sort of one `orderby` part: `-` before the field asks for descending order. -/
def sortPart (key : String) (allowedFields : Option (List String)) (p : Parsed) (part : String) :
    Except QueryParamError Parsed :=
  let part := trim part
  if part = "" then .ok p
  else do
    let direction := if startsWith part "-" then SortDirection.desc else .asc
    let sanitized ← fieldOf U (trimStartMatches part '-') key
    .ok (p.sortBy allowedFields sanitized (fieldSql sanitized) direction)

/-- An `orderby` value without its `:dir` suffix, and the direction the suffix asks for. -/
def sortSuffix (value : String) : String × Option SortDirection :=
  match splitOnce value ':' with
  | some (f, d) => (f, some (if eqIgnoreAsciiCase (trim d) "desc" then .desc else .asc))
  | none => (value, none)

/-- `orderby=field`, with a `-` before the field or a `:dir` after it. -/
def sortSingle (key value : String) (allowedFields : Option (List String)) (p : Parsed) :
    Except QueryParamError Parsed :=
  let bare := (sortSuffix value).1
  let direction :=
    if startsWith bare "-" then SortDirection.desc else (sortSuffix value).2.getD .asc
  let field := trimStartMatches bare '-'
  if trim field = "" then .ok p
  else do
    let sanitized ← fieldOf U field key
    .ok (p.sortBy allowedFields sanitized (fieldSql sanitized) direction)

/-- The columns of `searchfields=a,b`. -/
def searchColumns (key value : String) (allowedFields : Option (List String)) :
    Except QueryParamError (List String) := do
  let columns ← ((split value ',').map trim |>.filter (· ≠ "")).mapM fun s => fieldOf U s key
  .ok (columns.filter (allows allowedFields))

/-- A bracket key whose operator is a sort, an OR or a standard operator. -/
def parseOperator (columnTypes : ColumnTypes) (key value field operatorStr : String) (p : Parsed) :
    Except QueryParamError Parsed :=
  match toAsciiLowercase operatorStr with
  | "orderby" => .ok { p with
      filter := p.filter.addSort ⟨fieldSql field, SortDirection.fromStr value⟩ }
  | "or" | "orwhere" =>
    .ok { p with orConditions := p.orConditions ++ [orCondition U columnTypes field value] }
  | _ =>
    match FilterOperator.fromStr operatorStr with
    | some op =>
      let isList := decide (op ∈ listOperators)
      .ok { p with
        filter := p.filter.addCondition (filterCondition U columnTypes field value op isList) }
    | none => .error {
        parameter := key
        reason := .unknownOperator
        message := "`" ++ key ++ "`: `" ++ operatorStr ++
          "` is not a filter operator (use one of " ++ operatorKeywords ++ ")" }

/-- A key with a bracket: `field[operator]`, or `orderby[column]`. -/
def parseBracket (columnTypes : ColumnTypes) (allowedFields : Option (List String))
    (key value field operatorStr : String) (p : Parsed) : Except QueryParamError Parsed := do
  let sanitizedField ← fieldOf U field key
  if !allows allowedFields sanitizedField then .ok p
  else if eqIgnoreAsciiCase field "orderby" || eqIgnoreAsciiCase field "sort" then
    let sortField ← fieldOf U operatorStr key
    let v := trim value
    let dir := if startsWith v "-" || eqIgnoreAsciiCase v "desc" then SortDirection.desc else .asc
    .ok (p.sortBy allowedFields sortField sortField dir)
  else parseOperator U columnTypes key value sanitizedField operatorStr p

/-- A key that names a field: simple equality. -/
def parseEquality (columnTypes : ColumnTypes) (allowedFields : Option (List String))
    (key value : String) (p : Parsed) : Except QueryParamError Parsed := do
  let sanitizedField ← fieldOf U key key
  if !allows allowedFields sanitizedField then .ok p
  else
    let isList := contains value ','
    .ok { p with
      filter := p.filter.addCondition
        (filterCondition U columnTypes sanitizedField value .equal isList) }

/-- A key without a bracket. -/
def parsePlain (columnTypes : ColumnTypes) (allowedFields : Option (List String))
    (key value : String) (p : Parsed) : Except QueryParamError Parsed :=
  match toAsciiLowercase key with
  | "orderby" | "sort" =>
    if contains value ',' then (split value ',').foldlM (sortPart U key allowedFields) p
    else sortSingle U key value allowedFields p
  | "search" => .ok { p with filter := { p.filter with search := some value } }
  | "searchfields" => do
    let columns ← searchColumns U key value allowedFields
    .ok { p with filter := { p.filter with searchFields := columns } }
  | "limit" | "pagesize" | "perpage" | "per_page" =>
    -- An empty paging value asks for nothing.
    if trim value = "" then .ok p
    else do
      let n ← countOf key value
      .ok { p with filter := { p.filter with limit := some n } }
  | "offset" =>
    if trim value = "" then .ok p
    else do
      let n ← countOf key value
      .ok { p with filter := { p.filter with offset := some n } }
  | "page" =>
    if trim value = "" then .ok p
    else do
      let n ← countOf key value
      .ok { p with filter := { p.filter with page := some n } }
  | "after" => .ok { p with filter := { p.filter with cursorAfter := some value } }
  | "before" => .ok { p with filter := { p.filter with cursorBefore := some value } }
  | "estimate" | "estimate_total" =>
    .ok { p with filter := { p.filter with estimateTotal := value ∈ ["1", "true", "yes"] } }
  | _ =>
    if key ∈ ["fields", "include", "with"] then .ok p
    else parseEquality U columnTypes allowedFields key value p

/-- A key cut at its first bracket: the field, and what follows the bracket. -/
def bracketOf (key : String) : Option (String × String) := splitOnce key '['

/-- One parameter of the request. -/
def parseParam (columnTypes : ColumnTypes) (allowedFields : Option (List String)) (p : Parsed)
    (param : String × String) : Except QueryParamError Parsed :=
  let key := param.1
  let value := param.2
  if isInternalKey key then .ok p
  else
    match bracketOf key with
    | some (field, rest) =>
      if endsWith key ']' then
        let operatorStr := String.ofList rest.toList.dropLast
        parseBracket U columnTypes allowedFields key value field operatorStr p
      else .error {
        parameter := key
        reason := .invalidFieldName
        message := "`" ++ key ++ "` opens an operator bracket it never closes" }
    | none => parsePlain U columnTypes allowedFields key value p

/-- Parse filter from query parameters. -/
def parseFilters (params : List (String × String)) (columnTypes : ColumnTypes)
    (allowedFields : Option (List String)) : Except QueryParamError QueryFilter := do
  let p ← params.foldlM (parseParam U columnTypes allowedFields) {}
  .ok (p.orConditions.foldl QueryFilter.addCondition p.filter)

end Backbone.Orm
