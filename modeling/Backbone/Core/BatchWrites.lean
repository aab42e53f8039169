import Backbone.Core.CrudRoutes
import Backbone.Core.PartialUpdate

/-!
# Writes of many rows

A batch is read, checked and prepared item by item, and then written in one transaction. An update
names each row by the text of its id, with what is to become of it; the batches that delete and restore
are lists of ids. A list is written by one statement, whose count of rows is held against the number of
ids.

A table holds its rows under UUIDs. The text of an id is read as one, by the routes and by the database
alike. Lifecycle and hooks of an update may alter the entity that is to be stored.

Reference: `backbone-core/src/service.rs` (`bulk_update`, `bulk_partial_update`,
`preview_bulk_partial_update`, `bulk_soft_delete`, `bulk_restore`, `bulk_permanent_delete`,
`dedup_ids`, `first_duplicate_id`) and `backbone-orm/src/generic_repository.rs` (`update_each_changed`
and the batch statements).
-/

namespace Backbone.Core

open Workflow (Value)
open Orm (Row isDeleted fieldValue updateChanged inWriteTxResult)

variable {ids : List String}

/-! ## Ids -/

/-- The loop of `dedup_ids`, past the ids it has seen. -/
def dedupFrom (seen : List String) : List String → List String
  | [] => []
  | id :: ids => if id ∈ seen then dedupFrom seen ids else id :: dedupFrom (id :: seen) ids

/-- `dedup_ids`. -/
def dedupIds (ids : List String) : List String := dedupFrom [] ids

/-- The loop of `first_duplicate_id`, past the ids it has seen. -/
def firstDuplicateFrom (seen : List String) : List String → Option String
  | [] => none
  | id :: ids => if id ∈ seen then some id else firstDuplicateFrom (id :: seen) ids

/-- `first_duplicate_id`. -/
def firstDuplicateId (ids : List String) : Option String := firstDuplicateFrom [] ids

/-! ## Tables -/

/-- A table: its rows under their primary key, each with a text of the key in its `id` column.
`readId` is what `Uuid::parse_str` and `$1::uuid` read of a text. -/
structure Records (readId : String → Option Uuid) where
  rows : List (Uuid × Row)
  primaryKey : (rows.map (·.1)).Nodup
  idColumn : ∀ r ∈ rows, ∃ id, r.2 "id" = .str id ∧ readId id = some r.1

namespace Records

variable {readId : String → Option Uuid}

/-- The row under a key. -/
def find (t : Records readId) (key : Uuid) : Option Row := (t.rows.find? (·.1 == key)).map (·.2)

/-- A statement that changes rows in place, their `id` columns apart. -/
def change (t : Records readId) (f : Uuid × Row → Row) (hid : ∀ r, f r "id" = r.2 "id") :
    Records readId where
  rows := t.rows.map fun r => (r.1, f r)
  primaryKey := by
    rw [List.map_map]
    exact t.primaryKey
  idColumn := by
    intro changed hchanged
    obtain ⟨r, hr, rfl⟩ := List.mem_map.mp hchanged
    obtain ⟨id, hcolumn, hkey⟩ := t.idColumn r hr
    exact ⟨id, (hid r).trans hcolumn, hkey⟩

/-- `id IN (…)`, of the live rows or of the trash. -/
def named (keys : List Uuid) (trashed : Bool) (r : Uuid × Row) : Bool :=
  keys.contains r.1 && isDeleted r.2 == trashed

theorem softDelete_id (stamp : Value) (row : Row) :
    (Orm.softDelete stamp row).1 "id" = row "id" := by
  unfold Orm.softDelete
  split
  · rfl
  · simp

theorem restore_id (row : Row) : (Orm.restore row).1 "id" = row "id" := by
  unfold Orm.restore
  split
  · simp
  · rfl

/-- `UPDATE … WHERE id IN (…)` that marks live rows, and how many it marks. -/
def softDelete (t : Records readId) (stamp : Value) (keys : List Uuid) : ℕ × Records readId :=
  ((t.rows.filter (named keys false)).length,
    t.change (fun r => if named keys false r then (Orm.softDelete stamp r.2).1 else r.2) (by
      intro r
      split
      · exact softDelete_id stamp r.2
      · rfl))

/-- `UPDATE … WHERE id IN (…) RETURNING *` that restores rows of the trash, and the rows it returns. -/
def restore (t : Records readId) (keys : List Uuid) : List Row × Records readId :=
  ((t.rows.filter (named keys true)).map fun r => (Orm.restore r.2).1,
    t.change (fun r => if named keys true r then (Orm.restore r.2).1 else r.2) (by
      intro r
      split
      · exact restore_id r.2
      · rfl))

/-- `DELETE … WHERE id IN (…)` of rows of the trash, and how many it deletes. -/
def delete (t : Records readId) (keys : List Uuid) : ℕ × Records readId :=
  ((t.rows.filter (named keys true)).length,
    { rows := t.rows.filter fun r => !named keys true r
      primaryKey := t.primaryKey.sublist (List.filter_sublist.map _)
      idColumn := fun r hr => t.idColumn r (List.mem_of_mem_filter hr) })

end Records

/-! ## The service -/

/-- A row that is deleted, or restored, as a hook is told of it. -/
inductive Fate (Val : Type) where
  | deleted (before : Entity Val) (hard : Bool)
  | restored (entity : Entity Val)

/-- What a service asks while a batch runs: what an update DTO makes of an entity, the lifecycle, the
hooks, the other tables, and whether the database lets the rows stand. The lifecycle and the hooks of an
update answer with the entity to store. -/
structure BatchService (Val U : Type) where
  applyUpdate : Entity Val → U → Except ServiceError (Entity Val)
  actor : Option String := none
  time : ℤ := 0
  /-- `current_transition`. -/
  transition : Option String := none
  beforeUpdate : Entity Val → Except ServiceError (Entity Val) := .ok
  afterUpdate : Entity Val → Except ServiceError Unit := fun _ => .ok ()
  beforeDelete : Entity Val → Except ServiceError Unit := fun _ => .ok ()
  afterDelete : String → Except ServiceError Unit := fun _ => .ok ()
  beforeRestore : Entity Val → Except ServiceError Unit := fun _ => .ok ()
  beforeHardDelete : Entity Val → Except ServiceError Unit := fun _ => .ok ()
  hooksBeforeUpdate : Entity Val → Entity Val → Except ServiceError (Entity Val) :=
    fun _ after => .ok after
  hooksAfterUpdate : Entity Val → Entity Val → Except ServiceError (Entity Val) :=
    fun _ after => .ok after
  hooksBefore : Fate Val → Except ServiceError Unit := fun _ => .ok ()
  hooksAfter : Fate Val → Except ServiceError Unit := fun _ => .ok ()
  /-- `reference_visible`; nothing where the repository cannot tell. -/
  referenceVisible : Reference → Value → Except ServiceError (Option Bool) := fun _ _ => .ok none
  /-- A constraint the rows break. -/
  tableRefuses : List (Uuid × Row) → Option String := fun _ => none
  /-- A deferred constraint refuses the commit. -/
  commitRefused : Bool := false

/-- What the steps that a single partial update shares with a batch read of the service. -/
def BatchService.patch {Val U : Type} (S : BatchService Val U) : PatchService Val where
  actor := S.actor
  time := S.time
  transition := S.transition
  referenceVisible := S.referenceVisible

/-- What a batch ends in: a refusal of the batch itself, or what a step of it answers. -/
inductive BatchError where
  | validation (message : String)
  | service (err : ServiceError)
deriving DecidableEq, Repr

/-- `at_batch_index`. -/
def atBatchIndex (index : ℕ) : ServiceError → ServiceError
  | .violations vs => .violations (vs.map fun v => { v with path := batchItemPath index v.path })
  | .repository message => .repository ("item " ++ toString index ++ ": " ++ message)
  | .refused message => .refused ("item " ++ toString index ++ ": " ++ message)

/-- `check_batch_size`. -/
def checkBatchSize (count : ℕ) : Except BatchError Unit :=
  if maxBatchSize < count then
    .error (.validation ("Batch too large: " ++ toString count ++ " items exceeds the maximum of " ++
      toString maxBatchSize ++ "."))
  else .ok ()

/-- What an update checks of its ids before any work is done. -/
def checkItems (what : String) (ids : List String) : Except BatchError Unit := do
  checkBatchSize ids.length
  match firstDuplicateId ids with
  | some dup => .error (.validation ("duplicate id '" ++ dup ++ "' in " ++ what))
  | none => .ok ()

/-- The refusal of an id that names no row it should. -/
def idNotFound (id : String) : BatchError := .validation ("id '" ++ id ++ "' not found")

/-- The UUID a query casts the text of an id to. -/
def castId (readId : String → Option Uuid) (id : String) : Except ServiceError Uuid :=
  match readId id with
  | some key => .ok key
  | none => .error (.repository ("invalid input syntax for type uuid: \"" ++ id ++ "\""))

/-- The rows have to satisfy the constraints after a statement. -/
def BatchService.constrained {Val U : Type} (S : BatchService Val U)
    {readId : String → Option Uuid} (t : Records readId) : Except ServiceError Unit :=
  match S.tableRefuses t.rows with
  | some message => .error (.repository message)
  | none => .ok ()

namespace SerdeEntity

variable {Val U : Type} (E : SerdeEntity Val) (S : BatchService Val U) {readId : String → Option Uuid}

/-- `find_by_id` of the live rows, and `find_deleted_by_id` of the trash. -/
def findRow (t : Records readId) (trashed : Bool) (id : String) :
    Except ServiceError (Option (Entity Val)) := do
  let key ← castId readId id
  match (t.find key).filter fun row => isDeleted row == trashed with
  | none => return none
  | some row => return some (← E.fetch row)

/-! ### Updates -/

/-- What a full update makes of an entity. -/
def fullChange (dto : U) (before : Entity Val) : Except ServiceError (Entity Val) := do
  let updated ← S.applyUpdate before dto
  (E.refuseProtectedChanges S.transition (.obj (E.serialize before))
    (.obj (E.serialize updated))).mapError .violations
  return updated

/-- What a partial update makes of an entity. -/
def patchChange (fields : List (String × Value)) (before : Entity Val) :
    Except ServiceError (Entity Val) :=
  E.mergePatch S.patch before fields

/-- The steps from a row to the entity to store. -/
def readied (change : Entity Val → Except ServiceError (Entity Val)) (index : ℕ)
    (before : Entity Val) : Except ServiceError (Entity Val) := do
  let updated ← change before
  (E.consult (E.updateCtx S.patch before updated)).mapError .violations
  let updated ← S.beforeUpdate updated
  let updated ← S.hooksBeforeUpdate before updated
  (E.checkReferences S.patch before updated).mapError (atBatchIndex index)
  return updated

/-- One item: the row it finds and the entity to store. -/
def readiedItem (t : Records readId) (change : Entity Val → Except ServiceError (Entity Val))
    (index : ℕ) (id : String) : Except BatchError (Entity Val × Entity Val) := do
  match ← (E.findRow t false id).mapError .service with
  | none => .error (idNotFound id)
  | some before => return (before, ← (E.readied S change index before).mapError .service)

/-- The pairs a batch hands to the repository. -/
def handedOver {α : Type} (change : α → Entity Val → Except ServiceError (Entity Val))
    (t : Records readId) : ℕ → List (String × α) → Except BatchError (List (Entity Val × Entity Val))
  | _, [] => .ok []
  | index, (id, payload) :: items => do
    let pair ← E.readiedItem S t (change payload) index id
    let pairs ← handedOver change t (index + 1) items
    return pair :: pairs

/-- The text of an entity's id, in its JSON form. -/
def idText (entity : Entity Val) : Option String :=
  match fieldValue (E.serialize entity) "id" with
  | some (.str id) => some id
  | _ => none

/-- The id the statement of an update is bound to. -/
def boundId (entity : Entity Val) : Except ServiceError String :=
  match E.idText entity with
  | some id => .ok id
  | none => .error (.repository "entity missing string 'id' field")

/-- The row an update leaves: its columns that changed, `id` never among them. -/
def rowAfter (before after : Entity Val) (row : Row) : Row :=
  match updateChanged E.populate (.obj (E.serialize before)) (.obj (E.serialize after)) row with
  | .ok (stored, _) => stored
  | .error _ => row

theorem rowAfter_id (before after : Entity Val) (row : Row) :
    E.rowAfter before after row "id" = row "id" := by
  unfold rowAfter
  rw [Orm.updateChanged_eq]
  by_cases hdeleted : isDeleted row
  · simp only [hdeleted, if_true]
  · have hid : "id" ∉ Orm.differingFields (E.serialize before) (E.serialize after) :=
      fun h => (Orm.mem_differingFields h).2 rfl
    simp only [hdeleted, Bool.false_eq_true, if_false, Orm.assign, if_neg hid]

/-- The statement of one pair: the row it touches, the table it leaves and the entity it answers. -/
def updateOne (t : Records readId) (before after : Entity Val) :
    Except ServiceError (Uuid × Records readId × Entity Val) := do
  let id ← E.boundId after
  let key ← castId readId id
  let gone := ServiceError.repository ("id '" ++ id ++ "' not found or already deleted")
  match t.find key with
  | none => .error gone
  | some row =>
    match updateChanged E.populate (.obj (E.serialize before)) (.obj (E.serialize after)) row with
    | .error message => .error (.repository message)
    | .ok (_, none) => .error gone
    | .ok (_, some answer) => do
      let stored := t.change (fun r => if r.1 == key then E.rowAfter before after r.2 else r.2) (by
        intro r
        split
        · exact E.rowAfter_id before after r.2
        · rfl)
      S.constrained stored
      return (key, stored, ← E.fetch answer)

/-- `update_each_changed`: the statements that ran, each with the row it touched and the table it left,
and the entities they answered. -/
def updateEach (t : Records readId) (index : ℕ) : List (Entity Val × Entity Val) →
    List (Uuid × Records readId) × Except ServiceError (List (Entity Val))
  | [] => ([], .ok [])
  | (before, after) :: pairs =>
    match E.updateOne S t before after with
    | .error err => ([], .error (atBatchIndex index err))
    | .ok (key, stored, saved) =>
      ((key, stored) :: (updateEach stored (index + 1) pairs).1,
        (updateEach stored (index + 1) pairs).2.map (saved :: ·))

end SerdeEntity

/-- `after_bulk_updates`: lifecycle and hooks see each pair, and a hook may alter what is answered. -/
def BatchService.afterBulkUpdates {Val U : Type} (S : BatchService Val U) :
    List (Entity Val × Entity Val) → Except ServiceError (List (Entity Val))
  | [] => .ok []
  | (before, after) :: pairs => do
    S.afterUpdate after
    let after ← S.hooksAfterUpdate before after
    let rest ← S.afterBulkUpdates pairs
    return after :: rest

namespace SerdeEntity

variable {Val U : Type} (E : SerdeEntity Val) (S : BatchService Val U) {readId : String → Option Uuid}

/-- The work of a batch of updates: its statements, and its result. -/
def batchWork {α : Type} (change : α → Entity Val → Except ServiceError (Entity Val))
    (t : Records readId) (items : List (String × α)) :
    List (Uuid × Records readId) × Except BatchError (List (Entity Val)) :=
  match E.handedOver S change t 0 items with
  | .error err => ([], .error err)
  | .ok pairs =>
    ((E.updateEach S t 0 pairs).1, (do
      let saved ← (E.updateEach S t 0 pairs).2
      S.afterBulkUpdates ((pairs.map Prod.fst).zip saved)).mapError .service)

/-- `atomically`. -/
def unitOf {α : Type} (t : Records readId) (work : List (Records readId) × Except BatchError α) :
    Except BatchError α × Records readId :=
  inWriteTxResult (.service (.repository "the commit was refused")) S.commitRefused t work

/-- A batch of updates: what it answers, and the table after it. -/
def batchUpdate {α : Type} (what : String)
    (change : α → Entity Val → Except ServiceError (Entity Val)) (t : Records readId)
    (items : List (String × α)) :
    Except BatchError (List (Entity Val)) × Records readId :=
  match checkItems what (items.map Prod.fst) with
  | .error err => (.error err, t)
  | .ok () =>
    unitOf S t (((E.batchWork S change t items).1.map Prod.snd), (E.batchWork S change t items).2)

/-- `bulk_update`. -/
def bulkUpdate (t : Records readId) (items : List (String × U)) :
    Except BatchError (List (Entity Val)) × Records readId :=
  E.batchUpdate S "bulk update" (E.fullChange S) t items

/-- `bulk_partial_update`. -/
def bulkPartialUpdate (t : Records readId) (items : List (String × List (String × Value))) :
    Except BatchError (List (Entity Val)) × Records readId :=
  E.batchUpdate S "bulk partial update" (E.patchChange S) t items

/-! ### Lists of ids -/

/-- The question a delete or a restore puts to the guard. -/
def batchCtx (kind : WriteKind) (before : Entity Val) : WriteCtx where
  kind := kind
  before := some (.obj (E.serialize before))
  after := none
  actor := S.actor
  time := S.time
  transition := S.transition

/-- What is asked before a row is deleted. -/
def admitsDelete (entity : Entity Val) : Except ServiceError Unit := do
  (E.consult (E.batchCtx S .delete entity)).mapError .violations
  S.beforeDelete entity
  S.hooksBefore (.deleted entity false)

/-- What is asked before a row is restored. -/
def admitsRestore (trashed : Entity Val) : Except ServiceError Unit := do
  (E.consult (E.batchCtx S .restore trashed)).mapError .violations
  S.beforeRestore trashed
  S.hooksBefore (.restored trashed)

/-- What is asked before a row is deleted for good. -/
def admitsHardDelete (trashed : Entity Val) : Except ServiceError Unit := do
  (E.consult (E.batchCtx S .hardDelete trashed)).mapError .violations
  S.beforeHardDelete trashed
  S.hooksBefore (.deleted trashed true)

/-- The count of a statement, held against the ids it was given. -/
def counted (what state : String) (affected requested : ℕ) : Except ServiceError Unit :=
  if affected = requested then .ok ()
  else .error (.repository (what ++ ": " ++ toString (requested - affected) ++ " of " ++
    toString requested ++ " ids were not " ++ state ++ "; rolled back"))

/-- `bulk_soft_delete` of the repository. -/
def softDeleteRows (stamp : Value) (t : Records readId) (ids : List String) :
    Except ServiceError (ℕ × Records readId) :=
  if ids = [] then .ok (0, t)
  else do
    let keys ← ids.mapM (castId readId)
    S.constrained (t.softDelete stamp keys).2
    counted "bulk_soft_delete" "active/deletable" (t.softDelete stamp keys).1 ids.length
    return t.softDelete stamp keys

/-- `bulk_restore` of the repository. -/
def restoreRows (t : Records readId) (ids : List String) :
    Except ServiceError (List (Entity Val) × Records readId) :=
  if ids = [] then .ok ([], t)
  else do
    let keys ← ids.mapM (castId readId)
    S.constrained (t.restore keys).2
    let entities ← (t.restore keys).1.mapM E.fetch
    counted "bulk_restore" "in trash" entities.length ids.length
    return (entities, (t.restore keys).2)

/-- `bulk_permanent_delete` of the repository. -/
def deleteRows (t : Records readId) (ids : List String) : Except ServiceError (ℕ × Records readId) :=
  if ids = [] then .ok (0, t)
  else do
    let keys ← ids.mapM (castId readId)
    S.constrained (t.delete keys).2
    counted "bulk_permanent_delete" "in trash" (t.delete keys).1 ids.length
    return t.delete keys

/-- The work of a list of ids: what is asked about the rows, the statement, and what is told of it. -/
def listWork {α β γ : Type} (asked : Except BatchError α)
    (statement : Except ServiceError (β × Records readId))
    (told : α → β → Except ServiceError γ) : List (Records readId) × Except BatchError γ :=
  match asked with
  | .error err => ([], .error err)
  | .ok a =>
    match statement with
    | .error err => ([], .error (.service err))
    | .ok (b, stored) => ([stored], (told a b).mapError .service)

/-- A list of ids: its size is checked, repeated ids are dropped, and the rest is one unit. -/
def batchList {α : Type} (work : List String → List (Records readId) × Except BatchError α)
    (t : Records readId) (ids : List String) : Except BatchError α × Records readId :=
  match checkBatchSize ids.length with
  | .error err => (.error err, t)
  | .ok () => unitOf S t (work (dedupIds ids))

/-- The live rows of the ids, each of which has to be there. -/
def liveRows (t : Records readId) (ids : List String) : Except BatchError (List (Entity Val)) :=
  ids.mapM fun id => do
    match ← (E.findRow t false id).mapError .service with
    | none => .error (idNotFound id)
    | some entity => return entity

/-- What a batch that deletes asks. -/
def askedDelete (t : Records readId) (ids : List String) : Except BatchError (List (Entity Val)) := do
  let entities ← E.liveRows t ids
  (entities.forM (E.admitsDelete S)).mapError .service
  return entities

/-- What a batch that meets the trash asks: the rows it can see. -/
def askedTrash (admits : Entity Val → Except ServiceError Unit) (t : Records readId)
    (ids : List String) : Except BatchError (List (Entity Val)) :=
  (ids.filterMapM fun id => do
    match ← E.findRow t true id with
    | none => return none
    | some trashed => do
      admits trashed
      return some trashed).mapError .service

/-- `bulk_soft_delete`. -/
def bulkSoftDelete (stamp : Value) (t : Records readId) (ids : List String) :
    Except BatchError ℕ × Records readId :=
  batchList S (fun ids => listWork (E.askedDelete S t ids) (softDeleteRows S stamp t ids)
    fun entities affected => do
      (ids.zip entities).forM fun deleted => do
        S.afterDelete deleted.1
        S.hooksAfter (.deleted deleted.2 false)
      return affected) t ids

/-- `bulk_restore`. -/
def bulkRestore (t : Records readId) (ids : List String) :
    Except BatchError (List (Entity Val)) × Records readId :=
  batchList S (fun ids => listWork (E.askedTrash (E.admitsRestore S) t ids) (E.restoreRows S t ids)
    fun _ restored => do
      restored.forM fun entity => S.hooksAfter (.restored entity)
      return restored) t ids

/-- `bulk_permanent_delete`. -/
def bulkPermanentDelete (t : Records readId) (ids : List String) :
    Except BatchError ℕ × Records readId :=
  batchList S (fun ids => listWork (E.askedTrash (E.admitsHardDelete S) t ids) (deleteRows S t ids)
    fun seen affected => do
      seen.forM fun trashed => S.hooksAfter (.deleted trashed true)
      return affected) t ids

/-! ### The preview -/

/-- `preview_one`. -/
def previewOne (t : Records readId) (id : String) (fields : List (String × Value)) :
    Except BatchError (Entity Val × Entity Val) := do
  match ← (E.findRow t false id).mapError .service with
  | none => .error (idNotFound id)
  | some before => (do
      let patched ← E.mergePatch S.patch before fields
      (E.consult (E.updateCtx S.patch before patched)).mapError .violations
      let patched ← S.beforeUpdate patched
      E.checkReferences S.patch before patched
      return (before, patched)).mapError .service

/-- `preview_bulk_partial_update`: the outcome of each item, and the table after it. -/
def previewBulkPartialUpdate (t : Records readId) (items : List (String × List (String × Value))) :
    Except BatchError (List (BulkPreviewRow (Entity Val) BatchError)) × Records readId :=
  ((checkItems "bulk partial update" (items.map Prod.fst)).map fun _ =>
    items.map fun item => ⟨item.1, E.previewOne S t item.1 item.2⟩, t)

end SerdeEntity

/-! ## Ids that are told apart by their texts -/

theorem dedupFrom_spec (ids seen : List String) :
    (dedupFrom seen ids).Nodup ∧ ∀ id, id ∈ dedupFrom seen ids ↔ id ∈ ids ∧ id ∉ seen := by
  induction ids generalizing seen with
  | nil => simp [dedupFrom]
  | cons id ids ih =>
    unfold dedupFrom
    by_cases hseen : id ∈ seen
    · rw [if_pos hseen]
      refine ⟨(ih seen).1, fun other => ?_⟩
      rw [(ih seen).2, List.mem_cons]
      constructor
      · exact fun ⟨hids, hnot⟩ => ⟨.inr hids, hnot⟩
      · rintro ⟨rfl | hids, hnot⟩
        · exact absurd hseen hnot
        · exact ⟨hids, hnot⟩
    · rw [if_neg hseen]
      obtain ⟨hnodup, hmem⟩ := ih (id :: seen)
      refine ⟨List.nodup_cons.mpr ⟨fun hid => ?_, hnodup⟩, fun other => ?_⟩
      · exact ((hmem id).mp hid).2 List.mem_cons_self
      · rw [List.mem_cons, hmem, List.mem_cons, List.mem_cons, not_or]
        by_cases hother : other = id
        · subst hother
          simp [hseen]
        · simp [hother]

theorem nodup_dedupIds (ids : List String) : (dedupIds ids).Nodup := (dedupFrom_spec ids []).1

@[simp] theorem mem_dedupIds {id : String} : id ∈ dedupIds ids ↔ id ∈ ids := by
  rw [dedupIds, (dedupFrom_spec ids []).2]
  simp

theorem firstDuplicateFrom_eq_none {seen : List String} :
    firstDuplicateFrom seen ids = none ↔ ids.Nodup ∧ ∀ id ∈ ids, id ∉ seen := by
  induction ids generalizing seen with
  | nil => simp [firstDuplicateFrom]
  | cons id ids ih =>
    unfold firstDuplicateFrom
    by_cases hseen : id ∈ seen
    · rw [if_pos hseen]
      refine iff_of_false (fun h => by cases h) fun h => ?_
      exact h.2 id List.mem_cons_self hseen
    · rw [if_neg hseen, ih, List.nodup_cons, List.forall_mem_cons]
      constructor
      · rintro ⟨hnodup, hnot⟩
        refine ⟨⟨fun hid => hnot id hid List.mem_cons_self, hnodup⟩, hseen, fun other hother => ?_⟩
        exact fun h => hnot other hother (List.mem_cons_of_mem _ h)
      · rintro ⟨⟨hid, hnodup⟩, -, hnot⟩
        refine ⟨hnodup, fun other hother h => ?_⟩
        rcases List.mem_cons.mp h with rfl | h
        · exact hid hother
        · exact hnot other hother h

theorem checkBatchSize_eq_ok {count : ℕ} : checkBatchSize count = .ok () ↔ count ≤ maxBatchSize := by
  unfold checkBatchSize
  by_cases h : maxBatchSize < count
  · rw [if_pos h]
    exact iff_of_false (fun h => by cases h) (Nat.not_le.mpr h)
  · rw [if_neg h]
    exact iff_of_true rfl (Nat.not_lt.mp h)

/-- The check of a batch of updates passes one that is not too large and names no text twice. -/
theorem checkItems_eq_ok {what : String} :
    checkItems what ids = .ok () ↔ ids.length ≤ maxBatchSize ∧ ids.Nodup := by
  have hnone : firstDuplicateId ids = none ↔ ids.Nodup := by
    rw [firstDuplicateId, firstDuplicateFrom_eq_none]
    simp
  unfold checkItems
  rw [bind_eq_ok, ← checkBatchSize_eq_ok, ← hnone]
  cases firstDuplicateId ids with
  | none => exact ⟨fun ⟨_, h, _⟩ => ⟨h, rfl⟩, fun h => ⟨(), h.1, rfl⟩⟩
  | some dup =>
    refine iff_of_false ?_ fun h => by cases h.2
    rintro ⟨_, -, h⟩
    cases h

end Backbone.Core
