import Mathlib.Data.Finmap

/-!
# The in-memory repository

Two maps from ids to entities, the active ones and the trash, and the writes of `CrudRepository` over
them. An entity type is known by the getters and setters of `PersistentEntity`; the trait's default
methods are definitions over them. The clock and the id generator answer with the arguments `now` and
`fresh`.

A write that takes the locks of one or both maps is one step: its answer and the repository it leaves.
The reads that page and search the same maps are in `Paging`.

Reference: `backbone-core/src/persistence/memory.rs` and `backbone-core/src/persistence/traits.rs`.
-/

namespace Backbone.Persistence

/-! ## Entities -/

/-- `PersistentEntity`: the methods an entity type implements. Timestamps are microseconds. -/
class PersistentEntity (E : Type) where
  entityId : E → String
  setEntityId : String → E → E
  createdAt : E → Option ℤ
  setCreatedAt : ℤ → E → E
  updatedAt : E → Option ℤ
  setUpdatedAt : ℤ → E → E
  deletedAt : E → Option ℤ
  setDeletedAt : Option ℤ → E → E

export PersistentEntity (entityId setEntityId createdAt setCreatedAt updatedAt setUpdatedAt
  deletedAt setDeletedAt)

/-- What the repository relies on: a setter sets its own field, and neither the id nor the deletion
mark moves under another one. -/
class LawfulEntity (E : Type) [PersistentEntity E] : Prop where
  entityId_setEntityId : ∀ id (e : E), entityId (setEntityId id e) = id
  entityId_setCreatedAt : ∀ t (e : E), entityId (setCreatedAt t e) = entityId e
  entityId_setUpdatedAt : ∀ t (e : E), entityId (setUpdatedAt t e) = entityId e
  entityId_setDeletedAt : ∀ t (e : E), entityId (setDeletedAt t e) = entityId e
  deletedAt_setEntityId : ∀ id (e : E), deletedAt (setEntityId id e) = deletedAt e
  deletedAt_setCreatedAt : ∀ t (e : E), deletedAt (setCreatedAt t e) = deletedAt e
  deletedAt_setUpdatedAt : ∀ t (e : E), deletedAt (setUpdatedAt t e) = deletedAt e
  deletedAt_setDeletedAt : ∀ t (e : E), deletedAt (setDeletedAt t e) = t

attribute [simp] LawfulEntity.entityId_setEntityId LawfulEntity.entityId_setCreatedAt
  LawfulEntity.entityId_setUpdatedAt LawfulEntity.entityId_setDeletedAt
  LawfulEntity.deletedAt_setEntityId LawfulEntity.deletedAt_setCreatedAt
  LawfulEntity.deletedAt_setUpdatedAt LawfulEntity.deletedAt_setDeletedAt

section Entity

variable {E : Type} [PersistentEntity E]

/-- `PersistentEntity::is_deleted`. -/
def isDeleted (e : E) : Bool := (deletedAt e).isSome

/-- `PersistentEntity::mark_deleted`, which reads the clock twice. -/
def markDeleted (now later : ℤ) (e : E) : E := setUpdatedAt later (setDeletedAt (some now) e)

/-- `PersistentEntity::restore`. -/
def unmarkDeleted (now : ℤ) (e : E) : E := setUpdatedAt now (setDeletedAt none e)

variable [LawfulEntity E] (now : ℤ) (later : ℤ) (e : E)

@[simp] theorem entityId_markDeleted : entityId (markDeleted now later e) = entityId e := by
  simp [markDeleted]

@[simp] theorem isDeleted_markDeleted : isDeleted (markDeleted now later e) = true := by
  simp [markDeleted, isDeleted]

@[simp] theorem entityId_unmarkDeleted : entityId (unmarkDeleted now e) = entityId e := by
  simp [unmarkDeleted]

@[simp] theorem isDeleted_unmarkDeleted : isDeleted (unmarkDeleted now e) = false := by
  simp [unmarkDeleted, isDeleted]

@[simp] theorem isDeleted_setUpdatedAt (t : ℤ) (e : E) :
    isDeleted (setUpdatedAt t e) = isDeleted e := by
  simp [isDeleted]

end Entity

/-! ## The repository -/

/-- The errors of `RepositoryError` the repositories answer with. -/
inductive RepositoryError where
  | notFound
  | alreadyExists (message : String)
  | databaseError (message : String)
deriving DecidableEq, Repr

/-- `InMemoryRepository`: the active entities and the soft-deleted ones. -/
structure InMemoryRepository (E : Type) where
  store : Finmap fun _ : String => E
  trash : Finmap fun _ : String => E

/-- An entity to create, with what the id generator and the clock answer for it. -/
structure Draft (E : Type) where
  entity : E
  fresh : String
  now : ℤ

namespace Draft

variable {E : Type} [PersistentEntity E]

/-- The entity under the id it is created with: its own, or a generated one if that is empty. -/
def identified (d : Draft E) : E :=
  if (entityId d.entity).isEmpty then setEntityId d.fresh d.entity else d.entity

/-- The id the entity is created with. -/
def id (d : Draft E) : String := entityId d.identified

/-- The entity as it is stored, with its timestamps. -/
def stamped (d : Draft E) : E :=
  setUpdatedAt d.now
    (if (createdAt d.identified).isNone then setCreatedAt d.now d.identified else d.identified)

variable [LawfulEntity E] (d : Draft E)

@[simp] theorem entityId_stamped : entityId d.stamped = d.id := by
  unfold stamped id
  split <;> simp

@[simp] theorem isDeleted_stamped : isDeleted d.stamped = isDeleted d.entity := by
  unfold stamped identified isDeleted
  split <;> split <;> simp

end Draft

namespace InMemoryRepository

variable {E : Type} [PersistentEntity E]

/-- `InMemoryRepository::new`. -/
def new : InMemoryRepository E := ⟨∅, ∅⟩

/-- `create`: refused for an id that is taken in the store. -/
def create (repo : InMemoryRepository E) (d : Draft E) :
    Except RepositoryError E × InMemoryRepository E :=
  if d.id ∈ repo.store then
    (.error (.alreadyExists ("Entity with ID " ++ d.id ++ " already exists")), repo)
  else
    (.ok d.stamped, { repo with store := repo.store.insert (entityId d.stamped) d.stamped })

/-- `find_by_id`. -/
def findById (repo : InMemoryRepository E) (id : String) : Option E := repo.store.lookup id

/-- `find_by_id_including_deleted`: the store is asked first. -/
def findByIdIncludingDeleted (repo : InMemoryRepository E) (id : String) : Option E :=
  match repo.store.lookup id with
  | some entity => some entity
  | none => repo.trash.lookup id

/-- `update`. -/
def update (repo : InMemoryRepository E) (entity : E) (now : ℤ) :
    Except RepositoryError E × InMemoryRepository E :=
  if entityId entity ∈ repo.store then
    let entity := setUpdatedAt now entity
    (.ok entity, { repo with store := repo.store.insert (entityId entity) entity })
  else
    (.error .notFound, repo)

/-- `soft_delete`: out of the store, into the trash. -/
def softDelete (repo : InMemoryRepository E) (id : String) (now later : ℤ) :
    Bool × InMemoryRepository E :=
  match repo.store.lookup id with
  | some entity =>
    (true, ⟨repo.store.erase id, repo.trash.insert id (markDeleted now later entity)⟩)
  | none => (false, repo)

/-- `restore`: out of the trash, into the store. -/
def restore (repo : InMemoryRepository E) (id : String) (now : ℤ) :
    Option E × InMemoryRepository E :=
  match repo.trash.lookup id with
  | some entity =>
    (some (unmarkDeleted now entity),
      ⟨repo.store.insert id (unmarkDeleted now entity), repo.trash.erase id⟩)
  | none => (none, repo)

/-- `hard_delete`: out of both maps. -/
def hardDelete (repo : InMemoryRepository E) (id : String) : Bool × InMemoryRepository E :=
  (decide (id ∈ repo.store) || decide (id ∈ repo.trash),
    ⟨repo.store.erase id, repo.trash.erase id⟩)

/-- `bulk_create`: one after the other, up to the first that is refused. -/
def bulkCreate (repo : InMemoryRepository E) :
    List (Draft E) → Except RepositoryError (List E) × InMemoryRepository E
  | [] => (.ok [], repo)
  | d :: ds =>
    match repo.create d with
    | (.error refused, repo) => (.error refused, repo)
    | (.ok entity, repo) =>
      let (answer, repo) := bulkCreate repo ds
      (answer.map (entity :: ·), repo)

/-- `empty_trash`, with the number of entities it drops. -/
def emptyTrash (repo : InMemoryRepository E) : ℕ × InMemoryRepository E :=
  (repo.trash.keys.card, { repo with trash := ∅ })

end InMemoryRepository

/-! ## Calls -/

/-- A call that writes, with what the clock and the id generator answer during it. -/
inductive Write (E : Type) where
  | create (draft : Draft E)
  | update (entity : E) (now : ℤ)
  | softDelete (id : String) (now later : ℤ)
  | restore (id : String) (now : ℤ)
  | hardDelete (id : String)
  | bulkCreate (drafts : List (Draft E))
  | emptyTrash

/-- What a call answers with when it does not fail. -/
inductive Reply (E : Type) where
  | entity (e : E)
  | entities (es : List E)
  | restored (e : Option E)
  | deleted (did : Bool)
  | dropped (count : ℕ)

namespace InMemoryRepository

variable {E : Type} [PersistentEntity E]

/-- A call: its answer and the repository it leaves. -/
def call (repo : InMemoryRepository E) :
    Write E → Except RepositoryError (Reply E) × InMemoryRepository E
  | .create d => ((repo.create d).1.map .entity, (repo.create d).2)
  | .update e now => ((repo.update e now).1.map .entity, (repo.update e now).2)
  | .softDelete id now later =>
    (.ok (.deleted (repo.softDelete id now later).1), (repo.softDelete id now later).2)
  | .restore id now => (.ok (.restored (repo.restore id now).1), (repo.restore id now).2)
  | .hardDelete id => (.ok (.deleted (repo.hardDelete id).1), (repo.hardDelete id).2)
  | .bulkCreate ds => ((repo.bulkCreate ds).1.map .entities, (repo.bulkCreate ds).2)
  | .emptyTrash => (.ok (.dropped repo.emptyTrash.1), repo.emptyTrash.2)

/-- The repository a call leaves. -/
def step (repo : InMemoryRepository E) (w : Write E) : InMemoryRepository E := (repo.call w).2

end InMemoryRepository

end Backbone.Persistence
