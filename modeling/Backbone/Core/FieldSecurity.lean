import Backbone.Core.QueryGate
import Backbone.Workflow.Expr

/-!
# Field-level security of a response

The steps the generic routes shape an entity's JSON with: its secrets are stripped for everyone, its
private fields for anyone but a platform caller or the owner, its permission-gated fields are set to
`null` for a caller without the permission, requested relations are expanded next to its own fields,
and a sparse fieldset is cut out at the end.

A `serde_json` map is the list of its fields. What a process has registered by table, the Unicode
tables and `uuid::Uuid::parse_str` are the environment.

Reference: `backbone-core/src/http.rs`, `backbone-orm/src/secret_registry.rs` and
`backbone-orm/src/field_permission_registry.rs`.
-/

namespace Backbone.Core

open Text
open Workflow (Value)

/-- `uuid::Uuid`. -/
abbrev Uuid := BitVec 128

/-- Per-request access scope. -/
inductive AccessScope where
  /-- Full visibility. -/
  | platform
  /-- Scoped to a single company. -/
  | company (id : Uuid)
deriving DecidableEq, Repr

/-! ## The registries -/

/-- `key`: the bare table name, lower-cased. -/
def tableKey (table : String) : String :=
  toAsciiLowercase (trimMatches ((split table '.').getLastD table) '"')

/-- What the generic routes of a process registered, each entry under the table as it was spelled. -/
structure Registry where
  secrets : List (String × List String) := []
  permissions : List (String × List (String × String)) := []

/-- The secrets registered for a table. -/
def Registry.secretFieldsOf (r : Registry) (table : String) : List String :=
  (r.secrets.filter fun entry => tableKey entry.1 = tableKey table).flatMap (·.2)

/-- The permission-gated fields registered for a table; the first permission of a field stays. -/
def Registry.fieldPermissionsOf (r : Registry) (table : String) : List (String × String) :=
  ((r.permissions.filter fun entry => tableKey entry.1 = tableKey table).flatMap (·.2)).foldl
    (fun fields field => if fields.any (·.1 == field.1) then fields else fields ++ [field]) []

/-- What a response is shaped in. -/
structure Env where
  tables : CharTables
  toUppercase : Char → List Char
  /-- `uuid::Uuid::parse_str`. -/
  parseUuid : String → Option Uuid
  registry : Registry := {}

/-! ## Stripping and redacting -/

/-- The object without some of its fields. -/
def removeFields (value : Value) (names : List String) : Value :=
  match value with
  | .obj fields => .obj (fields.filter fun field => !names.contains field.1)
  | other => other

/-- Strip the fields that never leave the server, whoever asks. -/
def stripSecrets (value : Value) (secretFields : List String) : Value :=
  removeFields value secretFields

/-- Redact the permission-gated fields: the key stays and the value becomes `null`. -/
def redactGated (value : Value) (gated : List (String × String)) (caller : Caller) : Value :=
  gated.foldl (fun value field =>
    if caller.held field.2 then value else value.insertIfObject field.1 .null) value

/-- The first gated field a key names, in either casing, when the caller lacks its permission. -/
def withheld (gated : List (String × String)) (caller : Caller) (key : String) : Bool :=
  (gated.find? fun field => camelToSnakeCase field.1 == camelToSnakeCase key).any fun field =>
    !caller.held field.2

mutual
/-- `redactGated` over an answer of any shape: a key that names a gated field, in either casing, at
any depth, is set to `null`. -/
def redactGatedDeep (gated : List (String × String)) (caller : Caller) : Value → Value
  | .obj fields => .obj (redactFields gated caller fields)
  | .arr items => .arr (redactItems gated caller items)
  | other => other

def redactItems (gated : List (String × String)) (caller : Caller) : List Value → List Value
  | [] => []
  | item :: items => redactGatedDeep gated caller item :: redactItems gated caller items

def redactFields (gated : List (String × String)) (caller : Caller) :
    List (String × Value) → List (String × Value)
  | [] => []
  | (key, inner) :: fields =>
    (key, if withheld gated caller key then .null else redactGatedDeep gated caller inner) ::
      redactFields gated caller fields
end

/-- May the caller see the private fields of a row? Its owner key is parsed, not compared as
text. -/
def canSeePrivate (env : Env) (value : Value) (scope : Option AccessScope)
    (ownerField : Option String) : Bool :=
  match scope with
  | some .platform => true
  | some (.company id) =>
    (((ownerField.bind value.get?).bind Value.asStr).bind env.parseUuid).any (· == id)
  | none => false

def applyFieldSecurity (env : Env) (value : Value) (scope : Option AccessScope)
    (privateFields : List String) (ownerField : Option String) : Value :=
  if privateFields.isEmpty || canSeePrivate env value scope ownerField then value
  else removeFields value privateFields

/-- The shape every generic route serves one entity in. -/
def secure (env : Env) (E : EntityMeta) (value : Value) (scope : Option AccessScope)
    (caller : Caller) : Value :=
  redactGated
    (applyFieldSecurity env (stripSecrets value E.secretFields) scope E.privateFields E.ownerField)
    E.fieldPermissions caller

/-! ## Relations -/

/-- Shallow-camelCase an object's top-level keys. -/
def camelizeKeys (env : Env) (value : Value) : Value :=
  match value with
  | .obj fields => .obj (fields.foldl (fun fields field =>
      Value.insertField fields (snakeToCamel env.toUppercase field.1) field.2) [])
  | other => other

/-- A related row an `?include=` expands, as the response carries it. -/
def relatedRow (env : Env) (E : EntityMeta) (relation table : String) (obj : Value)
    (caller : Caller) : Value :=
  let row := stripSecrets (camelizeKeys env obj) (E.relationSecretFields relation)
  let row := stripSecrets row (env.registry.secretFieldsOf table)
  redactGated row (env.registry.fieldPermissionsOf table) caller

/-- The text under a key. -/
def textAt (value : Value) (key : String) : Option String := (value.get? key).bind Value.asStr

/-- One relation, expanded into every row. -/
def expandRelation (env : Env) (E : EntityMeta) (caller : Caller)
    (fetchRelatedJson : String → List String → List Value) (rows : List Value)
    (relation : String × String × String) : List Value :=
  let name := relation.1
  let table := relation.2.1
  let fkField := relation.2.2
  let ids := ((rows.filterMap fun row => textAt row fkField).insertionSort (· ≤ ·)).dedup
  if ids.isEmpty then rows
  else
    let byId := (fetchRelatedJson table ids).filterMap fun obj =>
      (textAt obj "id").map fun id => (id, relatedRow env E name table obj caller)
    rows.map fun row =>
      -- Of two rows with one id the last one stays in the map.
      let related := ((textAt row fkField).bind fun id => byId.reverse.lookup id).getD .null
      row.insertIfObject name related

/-- Expand requested relations into each row's JSON. -/
def expandIncludes (env : Env) (E : EntityMeta) (caller : Caller)
    (fetchRelatedJson : String → List String → List Value) (rows : List Value)
    (includes : List String) : List Value :=
  if includes.isEmpty || rows.isEmpty then rows
  else (E.relations.filter fun relation => includes.contains relation.1).foldl
    (expandRelation env E caller fetchRelatedJson) rows

/-- Apply a sparse fieldset. -/
def projectSparse (value : Value) (fields : List String) : Value :=
  if fields.isEmpty then value
  else
    match value with
    | .obj entries => .obj (entries.filter fun entry => entry.1 == "id" || fields.contains entry.1)
    | other => other

end Backbone.Core
