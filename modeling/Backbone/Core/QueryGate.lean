import Mathlib.Data.List.Sort
import Backbone.Orm.NamedColumns

/-!
# The gate of a list request

A list, count or aggregate request passes `queryRefusals` before it reaches the service. The gate
reads the names the request uses as columns with a small grammar of its own (`namedColumns`) and
refuses those that fold, by `camelToSnakeCase`, onto a secret field or onto a permission-gated field
the caller does not hold. What the gate lets by is reduced to the filters the parser reads
(`repositoryFilters`, `aggregateFilters`) and to the aggregate's own columns (`aggregateSpec`).

A map is taken as the list of its entries. The caller is what its grants answer for a permission.

Reference: `backbone-core/src/http.rs` and `backbone-core/src/violation.rs`.
-/

namespace Backbone.Core

open Text
open Orm (isInternalKey isSortKey)

/-! ## Requests -/

/-- `ListQueryParams`: the typed parameters, and the rest of the query string. -/
structure ListQueryParams where
  page : ℕ := 1
  limit : ℕ := 20
  sortBy : Option String := none
  sortOrder : Option String := none
  search : Option String := none
  status : Option String := none
  filters : List (String × String) := []
deriving DecidableEq, Repr

/-- `AuthContext::has_permission` of the caller; a caller with no context holds nothing. -/
abbrev Caller := Option (String → Bool)

def Caller.held (caller : Caller) (permission : String) : Bool := caller.elim false (· permission)

/-- `EntityRepoMeta`, as far as requests and responses read it. Fields are response keys; a field
permission is `(field, permission)`, a relation `(name, table, foreign key)`. -/
structure EntityMeta where
  secretFields : List String := []
  privateFields : List String := []
  ownerField : Option String := none
  fieldPermissions : List (String × String) := []
  relations : List (String × String × String) := []
  relationSecretFields : String → List String := fun _ => []

/-- The value under a key of a map. -/
def getKey (filters : List (String × String)) (key : String) : Option String := filters.lookup key

/-- The map with a value under a key. -/
def insertKey (filters : List (String × String)) (key value : String) : List (String × String) :=
  filters.filter (·.1 ≠ key) ++ [(key, value)]

/-- The map without a key. -/
def removeKey (filters : List (String × String)) (key : String) : List (String × String) :=
  filters.filter (·.1 ≠ key)

/-! ## Names -/

/-- The loop of `camel_to_snake_case`: the characters before `prev` are in `result`. -/
def camelFrom (result : List Char) (prev : Char) : List Char → List Char
  | [] => result
  | c :: cs =>
    if c.isUpper then
      let next := cs.headD '\x00'
      let crossesLower := prev.isLower || prev.isDigit
      let crossesAcronym := prev.isUpper && next.isLower
      let separated :=
        if (crossesLower || crossesAcronym) && !result.isEmpty && result.getLast? != some '_' then
          result ++ ['_']
        else result
      camelFrom (separated ++ [c.toLower]) c cs
    else camelFrom (result ++ [c]) c cs

/-- Convert a single JSON key from camelCase or PascalCase to snake_case. -/
def camelToSnakeCase (key : String) : String := String.ofList (camelFrom [] '\x00' key.toList)

/-- The loop of `snake_to_camel`; `upper` after an underscore. -/
def camelKeyFrom (toUppercase : Char → List Char) (upper : Bool) : List Char → List Char
  | [] => []
  | c :: cs =>
    if c = '_' then camelKeyFrom toUppercase true cs
    else (if upper then toUppercase c else [c]) ++ camelKeyFrom toUppercase false cs

/-- `snake_to_camel`; `toUppercase` is the table of `char::to_uppercase`. -/
def snakeToCamel (toUppercase : Char → List Char) (s : String) : String :=
  String.ofList (camelKeyFrom toUppercase false s.toList)

/-! ## The columns a request names -/

/-- The keys, in lower case, whose value is a list of columns. -/
def columnLists : List String :=
  ["orderby", "sort", "searchfields", "search_fields", "group_by", "sum", "avg", "min", "max",
    "group_label"]

/-- The names of one entry of the filters, each with its parameter. -/
def entryNames (key value : String) : List (String × String) :=
  (match splitOnce key '[' with
    | some (field, rest) => [(key, field), (key, trimEndMatches rest ']')]
    | none => [(key, key)]) ++
  if toAsciiLowercase key ∈ columnLists then
    (split value ',').map fun v => (key, trimStartMatches (trim v) '-')
  else []

/-- The fields a list-style request names as columns, with the parameter that names each. -/
def namedColumns (params : ListQueryParams) : List (String × String) :=
  let entries := params.filters.insertionSort fun a b => a.1 ≤ b.1
  (entries.flatMap fun entry => entryNames entry.1 entry.2) ++
    params.sortBy.toList.map fun name => ("sort_by", name)

/-- The secret field a list-style request names as a column, if any. -/
def namedSecretAt (params : ListQueryParams) (secretFields : List String) :
    Option (String × String) :=
  if secretFields.isEmpty then none
  else
    let secrets := secretFields.map camelToSnakeCase
    (namedColumns params).find? fun named => secrets.contains (camelToSnakeCase (trim named.2))

/-- The permission-gated field a name folds onto, if the caller lacks its permission. -/
def gatedAt (gated : List (String × String)) (caller : Caller) (name : String) :
    Option (String × String) :=
  let column := camelToSnakeCase (trim name)
  (gated.find? fun g => camelToSnakeCase g.1 == column).filter fun g => !caller.held g.2

/-- The permission-gated field a list-style request names as a column while its caller lacks the
permission, if any: the parameter, the field and the permission. -/
def namedGatedAt (params : ListQueryParams) (gated : List (String × String)) (caller : Caller) :
    Option (String × String × String) :=
  if gated.isEmpty then none
  else (namedColumns params).findSome? fun named =>
    (gatedAt gated caller named.2).map fun g => (named.1, g.1, g.2)

/-! ## Refusals -/

/-- The reasons of `QueryParamReason` the gate gives. -/
inductive GateReason where
  | tooDeep | invalidValue | fieldPermission | invalidFieldName | unknownRelation
deriving DecidableEq, Repr

/-- The stable code, as it appears in a violation's `params.reason`. -/
def GateReason.asStr : GateReason → String
  | tooDeep => "too_deep"
  | invalidValue => "invalid_value"
  | fieldPermission => "field_permission"
  | invalidFieldName => "invalid_field_name"
  | unknownRelation => "unknown_relation"

/-- `Violation`, with its parameters. -/
structure QueryViolation where
  path : String
  code : String
  params : List (String × String)
  message : String
deriving DecidableEq, Repr

/-- One refused query parameter as a violation. -/
def queryViolation (parameter : String) (reason : GateReason) (message : String) :
    QueryViolation where
  path := parameter
  code := "invalid_query"
  params := [("parameter", parameter), ("reason", reason.asStr)]
  message := message

def QueryViolation.withParam (v : QueryViolation) (name value : String) : QueryViolation :=
  { v with params := insertKey v.params name value }

/-- The answer to a request that names a secret field. -/
def secretNamedMessage (field : String) : String :=
  "'" ++ field ++ "' is a secret field: it cannot be filtered, sorted, searched or aggregated"

/-- The refusal of a request that names a secret field as a column. -/
def secretViolation (parameter field : String) : QueryViolation :=
  (queryViolation parameter .invalidValue
    ("`" ++ parameter ++ "`: " ++ secretNamedMessage field)).withParam "field" field

/-- The refusal of a request that names a permission-gated field without its permission. -/
def gatedViolation (parameter field permission : String) : QueryViolation :=
  ((queryViolation parameter .fieldPermission
    ("`" ++ parameter ++ "`: `" ++ field ++ "` needs the permission `" ++ permission ++
      "` to be filtered, sorted, searched or aggregated")).withParam "field" field).withParam
    "permission" permission

/-- Hard cap on page size. -/
def maxPerPage : ℕ := 100

/-- Maximum number of rows offset pagination is allowed to skip. -/
def maxPaginationOffset : ℕ := 10000

/-- Reject list requests that page beyond the deepest offset. Products saturate at 32 bits. -/
def paginationDepthError (page limit : ℕ) : Option String :=
  let effectiveLimit := min (max limit 1) maxPerPage
  let offset := min ((max page 1 - 1) * effectiveLimit) (2 ^ 32 - 1)
  if offset > maxPaginationOffset then
    some ("Result set too deep: offset " ++ toString offset ++ " exceeds the maximum of " ++
      toString maxPaginationOffset ++ ". Please add filters to narrow your search.")
  else none

/-- The entries of a comma-separated value, trimmed and without the empty ones. -/
def listEntries (value : String) : List String := ((split value ',').map trim).filter (· ≠ "")

/-- The reserved `fields` key. -/
def sparseFields (query : List (String × String)) : List String :=
  ((getKey query "fields").map listEntries).getD []

/-- The reserved `include` (or `with`) key. -/
def includeRelations (query : List (String × String)) : List String :=
  (((getKey query "include").or (getKey query "with")).map listEntries).getD []

/-- The refusals of the response-shaping keys. -/
def shapingRefusals (U : CharTables) (E : EntityMeta) (query : List (String × String)) :
    List QueryViolation :=
  let key := if (getKey query "include").isSome then "include" else "with"
  (((sparseFields query).filter fun name =>
      !name.toList.all fun c => U.isAlphanumeric c || c == '_').map fun name =>
    queryViolation "fields" .invalidFieldName
      ("`fields`: `" ++ Orm.clip name ++ "` is not a field name")) ++
  ((includeRelations query).filter fun name => !E.relations.any (·.1 == name)).map fun name =>
    queryViolation key .unknownRelation
      ("`" ++ key ++ "`: `" ++ Orm.clip name ++ "` is not a relation of this resource")

/-- The refusal of a `sort_order` that is no direction. -/
def sortOrderRefusal (params : ListQueryParams) : Option QueryViolation :=
  ((params.sortOrder.map trim).filter fun order =>
      order ≠ "" && !eqIgnoreAsciiCase order "asc" && !eqIgnoreAsciiCase order "desc").map
    fun order => queryViolation "sort_order" .invalidValue
      ("`sort_order` must be `asc` or `desc`, not `" ++ Orm.clip order ++ "`")

/-- What a list-shaped request must satisfy before it reaches the service; `paged` adds the bound
on the offset. -/
def queryRefusals (U : CharTables) (E : EntityMeta) (params : ListQueryParams) (paged : Bool)
    (caller : Caller) : List QueryViolation :=
  (if paged then
      (paginationDepthError params.page params.limit).toList.map fun message =>
        queryViolation "page" .tooDeep ("`page`: " ++ message)
    else []) ++
  (sortOrderRefusal params).toList ++
  ((namedSecretAt params E.secretFields).toList.map fun named =>
    secretViolation named.1 named.2) ++
  ((namedGatedAt params E.fieldPermissions caller).toList.map fun named =>
    gatedViolation named.1 named.2.1 named.2.2) ++
  shapingRefusals U E params.filters

/-! ## What passes the gate -/

/-- `RESERVED_QUERY_KEYS`. -/
def reservedQueryKeys : List String := ["fields", "include", "with"]

/-- `AGGREGATE_QUERY_KEYS`. -/
def aggregateQueryKeys : List String :=
  ["group_by", "sum", "avg", "min", "max", "group_limit", "group_label"]

/-- Does a key of the filters sort? -/
def isSorted (filters : List (String × String)) : Bool :=
  filters.any fun entry => isSortKey ((split entry.1 '[').headD entry.1)

/-- The direction a typed `sort_order` asks for. -/
def sortDirection (params : ListQueryParams) : String :=
  match params.sortOrder with
  | some d => if eqIgnoreAsciiCase (trim d) "desc" then "desc" else "asc"
  | none => "asc"

/-- The field of the typed `sort_by`, unless it is blank. -/
def sortField (params : ListQueryParams) : Option String :=
  (params.sortBy.map trim).filter (· ≠ "")

/-- The filters with what the typed parameters `search` and `status` add. -/
def typedFilters (params : ListQueryParams) : List (String × String) :=
  let filters := reservedQueryKeys.foldl removeKey params.filters
  let filters := filters.filter fun entry => !isInternalKey entry.1
  let filters := match params.search with
    | some search => insertKey filters "search" search
    | none => filters
  match params.status with
  | some status => insertKey filters "status" status
  | none => filters

/-- The `orderby` value the typed `sort_by` rides in on, when no filter sorts. -/
def typedSort (params : ListQueryParams) : Option String :=
  if isSorted (typedFilters params) then none
  else (sortField params).map fun field => field ++ ":" ++ sortDirection params

/-- Reduce a list-style query into the filters the repository should actually see. -/
def repositoryFilters (params : ListQueryParams) : List (String × String) :=
  match typedSort params with
  | some orderby => insertKey (typedFilters params) "orderby" orderby
  | none => typedFilters params

/-- The filters an aggregate should apply. -/
def aggregateFilters (params : ListQueryParams) : List (String × String) :=
  aggregateQueryKeys.foldl removeKey (repositoryFilters params)

/-- `AggregateFn`. -/
inductive AggregateFn where
  | sum | avg | min | max
deriving DecidableEq, Repr

/-- `AggregateSpec`, as a request makes it. -/
structure AggregateSpec where
  groupBy : Option String
  reductions : List (AggregateFn × String)
  groupLimit : ℕ
  labelField : Option String
deriving DecidableEq, Repr

/-- Read an aggregate request off the query string. -/
def aggregateSpec (params : ListQueryParams) : AggregateSpec where
  groupBy := ((getKey params.filters "group_by").map trim).filter (· ≠ "")
  reductions :=
    [("sum", AggregateFn.sum), ("avg", .avg), ("min", .min), ("max", .max)].flatMap fun entry =>
      (((getKey params.filters entry.1).map listEntries).getD []).map fun field => (entry.2, field)
  groupLimit := ((getKey params.filters "group_limit").bind fun l => parseUsize (trim l)).getD 0
  labelField := ((getKey params.filters "group_label").map trim).filter (· ≠ "")

/-- The columns an aggregate names besides its filters. -/
def AggregateSpec.columns (spec : AggregateSpec) : List String :=
  spec.groupBy.toList ++ spec.reductions.map (·.2) ++ spec.labelField.toList

end Backbone.Core
