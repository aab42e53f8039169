import Backbone.Core.FieldSecurity

/-!
# The generic CRUD routes

The handlers of the routes that answer with an entity's fields: the list and the trash, one record
and one deleted record, the writes one by one and in bulk, the preview of a bulk patch, and the
recorded history. Deletes, counts and aggregates answer with numbers and have no part here.

A handler runs one call of its service, which answers with whatever the database holds; the service
is a record of those calls. A response DTO is the JSON `toResponse` makes of an entity.

Reference: `backbone-core/src/http.rs`.
-/

namespace Backbone.Core

open Text
open Workflow (Value)

/-! ## The service -/

/-- `BulkPreviewRow`: the row before and after, or why it would be refused. -/
structure BulkPreviewRow (Entity Err : Type) where
  id : String
  outcome : Except Err (Entity × Entity)

/-- The calls of `CrudService` the handlers run, with what they read of an error. -/
structure CrudService (Entity Body Err Info : Type) where
  /-- `to_response_value(R::from(entity))`. -/
  toResponse : Entity → Value
  listWithInfo : ℕ → ℕ → List (String × String) → Except Err (List Entity × Info)
  listDeletedFiltered : ℕ → ℕ → List (String × String) → Except Err (List Entity × ℕ)
  getById : String → Except Err (Option Entity)
  getDeletedById : String → Except Err (Option Entity)
  create : Body → Except Err Entity
  upsert : Body → Except Err Entity
  update : String → Body → Except Err (Option Entity)
  partialUpdate : String → List (String × Value) → Except Err (Option Entity)
  restore : String → Except Err (Option Entity)
  bulkCreate : List Body → Except Err (List Entity)
  bulkRestore : List String → Except Err (List Entity)
  bulkUpdate : List (String × Body) → Except Err (List Entity)
  bulkPartialUpdate : List (String × List (String × Value)) → Except Err (List Entity)
  previewBulkPartialUpdate : List (String × List (String × Value)) →
    Except Err (Option (List (BulkPreviewRow Entity Err)))
  fetchRelatedJson : String → List String → List Value
  tableName : Option String
  supportsUpsert : Bool
  /-- Reads the fields of a bulk item as the update DTO. -/
  decodeUpdate : List (String × Value) → Except (List QueryViolation) Body
  violationsOf : Err → Option (List QueryViolation)
  errorText : Err → String

/-- `HistoryEntry`: one recorded change. -/
structure HistoryEntry where
  occurredAt : String
  action : String
  actor : String
  changed : Value
  reason : Option String
  correlationId : Option String

/-- A text that may be missing. -/
def optionalText (text : Option String) : Value := text.elim .null .str

/-- A recorded change, as it is served. -/
def HistoryEntry.toJson (entry : HistoryEntry) : Value :=
  .obj [("occurred_at", .str entry.occurredAt), ("action", .str entry.action),
    ("actor", .str entry.actor), ("changed", entry.changed), ("reason", optionalText entry.reason),
    ("correlation_id", optionalText entry.correlationId)]

/-- `HistoryProvider::history`: the table is not audited, or the entries on record. -/
abbrev HistoryProvider := String → String → ℕ → ℕ → Except String (Option (List HistoryEntry))

/-! ## Answers -/

/-- `BulkResponse`. -/
structure BulkResponse where
  items : List Value
  total : ℕ
  failed : ℕ
  errors : List String

/-- One field's value before and after a previewed write. -/
structure FieldChange where
  field : String
  before : Value
  after : Value

/-- A row a bulk patch would change. -/
structure PreviewChange where
  id : String
  changes : List FieldChange

/-- A row a bulk patch would refuse. -/
structure PreviewRefusal where
  id : String
  code : String
  message : String

/-- The answer of a bulk preview. -/
structure BulkPreview where
  willChange : List PreviewChange := []
  unchanged : List String := []
  refused : List PreviewRefusal := []
  total : ℕ := 0

/-- Every field change of a preview. -/
def BulkPreview.changes (preview : BulkPreview) : List FieldChange :=
  preview.willChange.flatMap (·.changes)

/-- The body a route answers with. -/
inductive Answer (Err Info : Type) where
  /-- The request is refused, by name. -/
  | rejected (violations : List QueryViolation)
  /-- The route says no with a sentence of its own. -/
  | error (message : String)
  | notFound (id : String)
  /-- The service failed. -/
  | failed (err : Err)
  | record (data : Value)
  | page (items : List Value) (info : Info)
  | deletedPage (items : List Value) (total page limit : ℕ)
  | bulk (data : BulkResponse)
  | preview (data : BulkPreview)
  | history (data : Value)

/-- The records an answer carries. -/
def Answer.records {Err Info : Type} : Answer Err Info → List Value
  | .record data => [data]
  | .page items _ => items
  | .deletedPage items _ _ _ => items
  | .bulk data => data.items
  | _ => []

/-! ## Refusals -/

/-- A path id that is not a UUID. -/
def invalidId (env : Env) (id path : String) : Option QueryViolation :=
  if (env.parseUuid id).isSome then none
  else some {
    path := path
    code := "invalid_id"
    params := []
    message := "`" ++ id ++ "` is not a valid record id" }

/-- `invalid_id` over a batch. -/
def invalidIds (env : Env) (ids : List String) (pathOf : ℕ → String) : List QueryViolation :=
  ids.zipIdx.filterMap fun entry => invalidId env entry.1 (pathOf entry.2)

/-- Maximum number of ids or items a single batch request may contain. -/
def maxBatchSize : ℕ := 1000

def batchSizeError (count : ℕ) : Option String :=
  if count > maxBatchSize then
    some ("Batch too large: " ++ toString count ++ " items exceeds the maximum of " ++
      toString maxBatchSize ++ ".")
  else none

/-- The refusals of a write body that names a permission-gated field its caller does not hold. -/
def gatedWriteRefusals (E : EntityMeta) (keys : List String) (caller : Caller) :
    List QueryViolation :=
  keys.flatMap fun key =>
    (E.fieldPermissions.filter fun field =>
        camelToSnakeCase field.1 == camelToSnakeCase (trim key) && !caller.held field.2).map
      fun field => {
        path := key
        code := "field_permission_required"
        params := [("permission", field.2)]
        message := "`" ++ key ++ "` needs the permission `" ++ field.2 ++ "` to be set" }

/-- `UPSERT_UNSUPPORTED`. -/
def upsertUnsupported : String :=
  "upsert is not available for this resource: a create body names no record to match. " ++
    "Create the record, or update it by id."

/-- Patch keys in snake case. -/
def snakeKeys (fields : List (String × Value)) : List (String × Value) :=
  fields.foldl (fun fields field =>
    Value.insertField fields (camelToSnakeCase field.1) field.2) []

/-! ## The handlers -/

section Handlers

variable {Entity Body Err Info : Type} (env : Env) (E : EntityMeta)
  (service : CrudService Entity Body Err Info) (caller : Caller)

/-- The answer of a write of one record: no scope, so private fields are kept from everyone. -/
def writeAnswer (entity : Entity) : Answer Err Info :=
  .record (secure env E (service.toResponse entity) none caller)

/-- The answer of a write of one record that may not be there. -/
def writeAnswerFor (id : String) (result : Except Err (Option Entity)) : Answer Err Info :=
  match result with
  | .ok (some entity) => writeAnswer env E service caller entity
  | .ok none => .notFound id
  | .error e => .failed e

/-- The answer of a write of many records. -/
def bulkAnswer (result : Except Err (List Entity)) : Answer Err Info :=
  match result with
  | .ok entities =>
    let items := entities.map fun e => secure env E (service.toResponse e) none caller
    .bulk { items := items, total := items.length, failed := 0, errors := [] }
  | .error e => .failed e

/-- The records of a page: secured, their relations expanded, the sparse fieldset cut out. -/
def pageItems (scope : Option AccessScope) (params : ListQueryParams) (entities : List Entity) :
    List Value :=
  let rows := entities.map fun e => secure env E (service.toResponse e) scope caller
  let rows := expandIncludes env E caller service.fetchRelatedJson rows
    (includeRelations params.filters)
  rows.map fun row => projectSparse row (sparseFields params.filters)

/-- `ListQueryParams::normalized`. -/
def normalized (params : ListQueryParams) : ListQueryParams :=
  { params with page := max params.page 1, limit := min (max params.limit 1) maxPerPage }

def listHandler (params : ListQueryParams) (scope : Option AccessScope) : Answer Err Info :=
  let params := normalized params
  let refused := queryRefusals env.tables E params true caller
  if !refused.isEmpty then .rejected refused
  else
    match service.listWithInfo params.page params.limit (repositoryFilters params) with
    | .ok (entities, info) => .page (pageItems env E service caller scope params entities) info
    | .error e => .failed e

def listDeletedHandler (params : ListQueryParams) (scope : Option AccessScope) :
    Answer Err Info :=
  let params := normalized params
  let refused := queryRefusals env.tables E params true caller
  if !refused.isEmpty then .rejected refused
  else
    match service.listDeletedFiltered params.page params.limit (repositoryFilters params) with
    | .ok (entities, total) =>
      .deletedPage (pageItems env E service caller scope params entities) total params.page
        params.limit
    | .error e => .failed e

def getHandler (id : String) (params : ListQueryParams) (scope : Option AccessScope) :
    Answer Err Info :=
  match invalidId env id "id" with
  | some violation => .rejected [violation]
  | none =>
    let refused := shapingRefusals env.tables E params.filters
    if !refused.isEmpty then .rejected refused
    else
      match service.getById id with
      | .ok (some entity) =>
        let secured := secure env E (service.toResponse entity) scope caller
        let rows := expandIncludes env E caller service.fetchRelatedJson [secured]
          (includeRelations params.filters)
        .record (projectSparse (rows.headD secured) (sparseFields params.filters))
      | .ok none => .notFound id
      | .error e => .failed e

/-- No relation is expanded into a deleted record. -/
def getDeletedHandler (id : String) (params : ListQueryParams) (scope : Option AccessScope) :
    Answer Err Info :=
  match invalidId env id "id" with
  | some violation => .rejected [violation]
  | none =>
    match service.getDeletedById id with
    | .ok (some entity) =>
      .record (projectSparse (secure env E (service.toResponse entity) scope caller)
        (sparseFields params.filters))
    | .ok none => .notFound id
    | .error e => .failed e

def createHandler (dto : Body) (keys : List String) : Answer Err Info :=
  let refused := gatedWriteRefusals E keys caller
  if !refused.isEmpty then .rejected refused
  else
    match service.create dto with
    | .ok entity => writeAnswer env E service caller entity
    | .error e => .failed e

def upsertHandler (dto : Body) (keys : List String) : Answer Err Info :=
  let refused := gatedWriteRefusals E keys caller
  if !refused.isEmpty then .rejected refused
  else if !service.supportsUpsert then .error upsertUnsupported
  else
    match service.upsert dto with
    | .ok entity => writeAnswer env E service caller entity
    | .error e => .failed e

def updateHandler (id : String) (dto : Body) (keys : List String) : Answer Err Info :=
  match invalidId env id "id" with
  | some violation => .rejected [violation]
  | none =>
    let refused := gatedWriteRefusals E keys caller
    if !refused.isEmpty then .rejected refused
    else writeAnswerFor env E service caller id (service.update id dto)

def partialUpdateHandler (id : String) (fields : List (String × Value)) : Answer Err Info :=
  match invalidId env id "id" with
  | some violation => .rejected [violation]
  | none =>
    let refused := gatedWriteRefusals E (fields.map (·.1)) caller
    if !refused.isEmpty then .rejected refused
    else writeAnswerFor env E service caller id (service.partialUpdate id (snakeKeys fields))

def restoreHandler (id : String) : Answer Err Info :=
  match invalidId env id "id" with
  | some violation => .rejected [violation]
  | none => writeAnswerFor env E service caller id (service.restore id)

def bulkCreateHandler (items : List Body) (keys : List String) : Answer Err Info :=
  let refused := gatedWriteRefusals E keys caller
  if !refused.isEmpty then .rejected refused
  else
    match batchSizeError items.length with
    | some message => .error message
    | none => bulkAnswer env E service caller (service.bulkCreate items)

def bulkRestoreHandler (ids : List String) : Answer Err Info :=
  match batchSizeError ids.length with
  | some message => .error message
  | none =>
    let refused := invalidIds env ids fun i => "ids/" ++ toString i
    if !refused.isEmpty then .rejected refused
    else bulkAnswer env E service caller (service.bulkRestore ids)

/-- `batch_item_path`: the path of a violation on one item of a batch. -/
def batchItemPath (index : ℕ) (path : String) : String :=
  if path = "" then toString index else toString index ++ "/" ++ path

/-- One item of a bulk update: its id, and its other fields read as the update DTO. -/
def bulkItem (index : ℕ) (fields : List (String × Value)) :
    Except (List QueryViolation) (String × Body) :=
  let path := batchItemPath index "id"
  match Value.get? (.obj fields) "id" with
  | some (.str id) =>
    match invalidId env id path with
    | some violation => .error [violation]
    | none =>
      match service.decodeUpdate (fields.filter (·.1 ≠ "id")) with
      | .ok data => .ok (id, data)
      | .error violations =>
        .error (violations.map fun v => { v with path := batchItemPath index v.path })
  | _ => .error [⟨path, "required", [], "id is required"⟩]

def bulkUpdateHandler (raw : List (List (String × Value))) : Answer Err Info :=
  match batchSizeError raw.length with
  | some message => .error message
  | none =>
    let refused := gatedWriteRefusals E (raw.flatMap fun fields => fields.map (·.1)) caller
    if !refused.isEmpty then .rejected refused
    else
      match raw.zipIdx.mapM fun item => bulkItem env service item.2 item.1 with
      | .ok items => bulkAnswer env E service caller (service.bulkUpdate items)
      | .error violations => .rejected violations

/-- What the bulk patch and its preview check first. -/
def bulkPatchRefusal (items : List (String × List (String × Value))) :
    Option (Answer Err Info) :=
  match batchSizeError items.length with
  | some message => some (.error message)
  | none =>
    let refused := invalidIds env (items.map (·.1)) fun i => toString i ++ "/id"
    if !refused.isEmpty then some (.rejected refused)
    else
      let refused := gatedWriteRefusals E (items.flatMap fun item => item.2.map (·.1)) caller
      if !refused.isEmpty then some (.rejected refused) else none

def bulkPatchHandler (items : List (String × List (String × Value))) : Answer Err Info :=
  match bulkPatchRefusal env E caller items with
  | some refusal => refusal
  | none => bulkAnswer env E service caller
      (service.bulkPartialUpdate (items.map fun item => (item.1, snakeKeys item.2)))

/-- A patched field of a secured record, under its camelCase name first. -/
def readPatched (record : Value) (field : String) : Value :=
  ((record.get? (snakeToCamel env.toUppercase field)).or (record.get? field)).getD .null

/-- The patched fields whose value would move. -/
def fieldChanges (before after : Value) (fields : List String) : List FieldChange :=
  (fields.map fun field => ⟨field, readPatched env before field, readPatched env after field⟩).filter
    fun change => change.before ≠ change.after

/-- One row of a dry run as the response shows it: before and after, or code and sentence. -/
abbrev PreviewOutcome := Except (String × String) (Value × Value)

/-- One row of a dry run, sorted into one of the three lists. -/
def BulkPreview.add (patched : List (String × List String)) (out : BulkPreview)
    (row : String × PreviewOutcome) : BulkPreview :=
  match row.2 with
  | .ok (before, after) =>
    let fields := ((patched.reverse.lookup row.1).getD []).insertionSort (· ≤ ·)
    let changes := fieldChanges env before after fields
    if changes.isEmpty then { out with unchanged := out.unchanged ++ [row.1] }
    else { out with willChange := out.willChange ++ [⟨row.1, changes⟩] }
  | .error (code, message) => { out with refused := out.refused ++ [⟨row.1, code, message⟩] }

/-- Sort a dry run's rows into the three lists. -/
def previewAnswer (rows : List (String × PreviewOutcome))
    (patched : List (String × List String)) : BulkPreview :=
  let out := rows.foldl (BulkPreview.add env patched) {}
  { out with total := out.willChange.length + out.unchanged.length + out.refused.length }

/-- A row of the dry run, secured. -/
def previewOutcome (row : BulkPreviewRow Entity Err) : PreviewOutcome :=
  match row.outcome with
  | .ok (before, after) =>
    .ok (secure env E (service.toResponse before) none caller,
      secure env E (service.toResponse after) none caller)
  | .error e =>
    .error ((((service.violationsOf e).bind List.head?).map (·.code)).getD "refused",
      service.errorText e)

def bulkPatchPreviewHandler (items : List (String × List (String × Value))) : Answer Err Info :=
  match bulkPatchRefusal env E caller items with
  | some refusal => refusal
  | none =>
    let items := items.map fun item => (item.1, snakeKeys item.2)
    match service.previewBulkPartialUpdate items with
    | .ok (some rows) =>
      .preview (previewAnswer env
        (rows.map fun row => (row.id, previewOutcome env E service caller row))
        (items.map fun item => (item.1, item.2.map (·.1))))
    | .ok none => .error "this resource has no preview of a bulk change"
    | .error e => .failed e

/-- The answer for a table that records nothing. -/
def notAudited : Value := .obj [("audited", .bool false), ("entries", .null)]

/-- What has been recorded about a record. The gate walks the whole answer for the fields the caller
does not hold. -/
def historyHandler (provider : Option HistoryProvider) (id : String) (params : ListQueryParams) :
    Answer Err Info :=
  match invalidId env id "id", provider, service.tableName with
  | some violation, _, _ => .rejected [violation]
  | none, none, _ => .error "history is not configured for this service"
  | none, some _, none =>
    .error "this entity cannot name its table, so its history cannot be keyed"
  | none, some provider, some table =>
    let limit := min (max params.limit 1) 200
    let offset := ((params.page - 1) * limit) % 2 ^ 32
    match provider table id limit offset with
    | .ok (some entries) =>
      let body := Value.obj [("audited", .bool true), ("entries", .arr (entries.map (·.toJson)))]
      .history (redactGatedDeep E.fieldPermissions caller body)
    | .ok none => .history notAudited
    | .error message => .error message

end Handlers

/-! ## Requests -/

/-- A request to one of the routes. -/
inductive CrudRequest (Body : Type) where
  | list (params : ListQueryParams) (scope : Option AccessScope)
  | listDeleted (params : ListQueryParams) (scope : Option AccessScope)
  | get (id : String) (params : ListQueryParams) (scope : Option AccessScope)
  | getDeleted (id : String) (params : ListQueryParams) (scope : Option AccessScope)
  | create (dto : Body) (keys : List String)
  | upsert (dto : Body) (keys : List String)
  | update (id : String) (dto : Body) (keys : List String)
  | partialUpdate (id : String) (fields : List (String × Value))
  | restore (id : String)
  | bulkCreate (items : List Body) (keys : List String)
  | bulkRestore (ids : List String)
  | bulkUpdate (raw : List (List (String × Value)))
  | bulkPatch (items : List (String × List (String × Value)))
  | bulkPatchPreview (items : List (String × List (String × Value)))
  | history (provider : Option HistoryProvider) (id : String) (params : ListQueryParams)

section Requests

variable {Entity Body Err Info : Type} (env : Env) (E : EntityMeta)
  (service : CrudService Entity Body Err Info) (caller : Caller)

/-- The router. -/
def respond : CrudRequest Body → Answer Err Info
  | .list params scope => listHandler env E service caller params scope
  | .listDeleted params scope => listDeletedHandler env E service caller params scope
  | .get id params scope => getHandler env E service caller id params scope
  | .getDeleted id params scope => getDeletedHandler env E service caller id params scope
  | .create dto keys => createHandler env E service caller dto keys
  | .upsert dto keys => upsertHandler env E service caller dto keys
  | .update id dto keys => updateHandler env E service caller id dto keys
  | .partialUpdate id fields => partialUpdateHandler env E service caller id fields
  | .restore id => restoreHandler env E service caller id
  | .bulkCreate items keys => bulkCreateHandler env E service caller items keys
  | .bulkRestore ids => bulkRestoreHandler env E service caller ids
  | .bulkUpdate raw => bulkUpdateHandler env E service caller raw
  | .bulkPatch items => bulkPatchHandler env E service caller items
  | .bulkPatchPreview items => bulkPatchPreviewHandler env E service caller items
  | .history provider id params => historyHandler env E service caller provider id params

end Requests

end Backbone.Core
