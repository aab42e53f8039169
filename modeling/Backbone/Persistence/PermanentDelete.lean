import Backbone.Core.WriteGuard
import Backbone.Persistence.InMemory

/-!
# Deleting for good

`CrudRepository` as the calls that read the trash, restore from it and delete for good, its
implementations in memory and over a Postgres table, and the services that answer with them:
`GenericCrudService` and the three adapters.

`get_deleted_by_id` asks for the row whether it is deleted or not, and `hard_delete` removes it whether
it is deleted or not. So a service keeps to the trash, for an id, exactly when the id has no live row.

What the guard, the lifecycle and the hooks of a service answer is a parameter; they leave the rows
alone. Neither repository has a write pool, so `atomically` runs its work as it is. A statement of the
table that fails in the database has no part here.

Reference: `backbone-core/src/service.rs`, `backbone-core/src/persistence/memory.rs`,
`backbone-core/src/persistence/postgres.rs` and `backbone-core/src/persistence/adapter.rs`.
-/

namespace Backbone.Persistence

open Machine
open Core (WriteKind)

/-! ## Repositories -/

/-- The calls of `CrudRepository` that meet the trash, over a state `σ`. -/
structure CrudRepository (σ E : Type) where
  findByIdIncludingDeleted : σ → String → Except RepositoryError (Option E)
  restore : σ → String → ℤ → Except RepositoryError (Option E) × σ
  hardDelete : σ → String → Except RepositoryError Bool × σ

/-- The in-memory repository. -/
def InMemoryRepository.crud (E : Type) [PersistentEntity E] :
    CrudRepository (InMemoryRepository E) E where
  findByIdIncludingDeleted repo id := .ok (repo.findByIdIncludingDeleted id)
  restore repo id now := (.ok (repo.restore id now).1, (repo.restore id now).2)
  hardDelete repo id := (.ok (repo.hardDelete id).1, (repo.hardDelete id).2)

/-! ## A Postgres table -/

/-- A row: the columns the statements name, and the others. -/
structure Row (ρ : Type) where
  id : String
  deletedAt : Option ℤ
  updatedAt : ℤ
  columns : ρ

/-- A table under its primary key. -/
structure Table (ρ : Type) where
  rows : List (Row ρ)
  primaryKey : (rows.map Row.id).Nodup

namespace Table

variable {ρ : Type}

/-- The rows `UPDATE … SET deleted_at = NULL … WHERE id = $1 AND deleted_at IS NOT NULL` touches. -/
def restores (id : String) (r : Row ρ) : Bool := r.id == id && r.deletedAt.isSome

/-- What the statement sets. -/
def restored (now : ℤ) (r : Row ρ) : Row ρ := { r with deletedAt := none, updatedAt := now }

/-- `select_by_id_including_deleted_query`, its first row. -/
def selectByIdIncludingDeleted (t : Table ρ) (id : String) : Option (Row ρ) :=
  t.rows.find? fun r => r.id == id

/-- `restore_query`, with the first row it returns. -/
def restoreQuery (t : Table ρ) (id : String) (now : ℤ) : Option (Row ρ) × Table ρ :=
  (((t.rows.filter (restores id)).map (restored now)).head?,
    { rows := t.rows.map fun r => if restores id r then restored now r else r
      primaryKey := by
        have hids : (t.rows.map fun r => if restores id r then restored now r else r).map Row.id =
            t.rows.map Row.id := by
          rw [List.map_map]
          apply List.map_congr_left
          intro r _
          simp only [Function.comp_apply]
          split <;> rfl
        rw [hids]
        exact t.primaryKey })

/-- `hard_delete_query`, with the number of rows it removes. -/
def hardDeleteQuery (t : Table ρ) (id : String) : ℕ × Table ρ :=
  ((t.rows.filter fun r => r.id == id).length,
    { rows := t.rows.filter fun r => !(r.id == id)
      primaryKey := t.primaryKey.sublist (List.filter_sublist.map Row.id) })

end Table

/-- `PostgresRepository`, over what `from_row` reads of a row. -/
def PostgresRepository {ρ E : Type} (fromRow : Row ρ → Except String E) :
    CrudRepository (Table ρ) E where
  findByIdIncludingDeleted t id :=
    match t.selectByIdIncludingDeleted id with
    | some row => (fromRow row).mapError .databaseError |>.map some
    | none => .ok none
  restore t id now :=
    match t.restoreQuery id now with
    | (some row, t) => ((fromRow row).mapError .databaseError |>.map some, t)
    | (none, t) => (.ok none, t)
  hardDelete t id := (.ok (decide ((t.hardDeleteQuery id).1 > 0)), (t.hardDeleteQuery id).2)

/-! ## Services -/

/-- `ServiceError`, as far as these calls answer it: a repository's error, or what the guard, the
lifecycle or a hook refused with. -/
inductive ServiceError (Refusal : Type) where
  | repository (e : RepositoryError)
  | refused (r : Refusal)

/-- The `Change` a hook is told of. -/
inductive Change (E : Type) where
  | deleted (before : E) (hard : Bool)
  | restored (entity : E)

/-- What the guard, the lifecycle and the hooks of a service answer. -/
structure Consulted (E Refusal : Type) where
  consult : WriteKind → Option E → Option E → Except Refusal Unit
  beforeRestore : E → Except Refusal Unit
  beforeHardDelete : E → Except Refusal Unit
  hookBefore : Change E → Except Refusal Unit
  hookAfter : Change E → Except Refusal Unit

/-- `GenericCrudService`. -/
structure GenericCrudService (σ E Refusal : Type) extends Consulted E Refusal where
  repository : CrudRepository σ E

namespace GenericCrudService

variable {σ E Refusal : Type} (svc : GenericCrudService σ E Refusal)

/-- `get_deleted_by_id`. -/
def getDeletedById (s : σ) (id : String) : Except (ServiceError Refusal) (Option E) :=
  (svc.repository.findByIdIncludingDeleted s id).mapError .repository

/-- What is asked before a row is restored. -/
def admitsRestore (trashed : E) : Except Refusal Unit := do
  svc.consult .restore (some trashed) none
  svc.beforeRestore trashed
  svc.hookBefore (.restored trashed)

/-- What is asked before a row is deleted for good. -/
def admitsHardDelete (entity : E) : Except Refusal Unit := do
  svc.consult .hardDelete (some entity) none
  svc.beforeHardDelete entity
  svc.hookBefore (.deleted entity true)

/-- `restore`. -/
def restore (s : σ) (id : String) (now : ℤ) : Except (ServiceError Refusal) (Option E) × σ :=
  match svc.getDeletedById s id with
  | .error e => (.error e, s)
  | .ok none => (.ok none, s)
  | .ok (some trashed) =>
    match svc.admitsRestore trashed with
    | .error r => (.error (.refused r), s)
    | .ok () =>
      match svc.repository.restore s id now with
      | (.error e, s) => (.error (.repository e), s)
      | (.ok none, s) => (.ok none, s)
      | (.ok (some entity), s) =>
        match svc.hookAfter (.restored entity) with
        | .error r => (.error (.refused r), s)
        | .ok () => (.ok (some entity), s)

/-- `hard_delete`. -/
def hardDelete (s : σ) (id : String) : Except (ServiceError Refusal) Bool × σ :=
  match svc.getDeletedById s id with
  | .error e => (.error e, s)
  | .ok none => (.ok false, s)
  | .ok (some entity) =>
    match svc.admitsHardDelete entity with
    | .error r => (.error (.refused r), s)
    | .ok () =>
      match svc.repository.hardDelete s id with
      | (.error e, s) => (.error (.repository e), s)
      | (.ok false, s) => (.ok false, s)
      | (.ok true, s) =>
        match svc.hookAfter (.deleted entity true) with
        | .error r => (.error (.refused r), s)
        | .ok () => (.ok true, s)

/-- `permanent_delete`: another name for `hard_delete`. -/
def permanentDelete (s : σ) (id : String) : Except (ServiceError Refusal) Bool × σ :=
  svc.hardDelete s id

end GenericCrudService

/-! ## Ways in -/

/-- The calls a service answers about the trash. -/
structure TrashCalls (σ E Err : Type) where
  getDeletedById : σ → String → Except Err (Option E)
  restore : σ → String → ℤ → Except Err (Option E) × σ
  permanentDelete : σ → String → Except Err Bool × σ

/-- An adapter answers with what its repository answers. -/
def adapterCalls {σ E : Type} (Refusal : Type) (repository : CrudRepository σ E) :
    TrashCalls σ E (ServiceError Refusal) where
  getDeletedById s id := (repository.findByIdIncludingDeleted s id).mapError .repository
  restore s id now :=
    ((repository.restore s id now).1.mapError .repository, (repository.restore s id now).2)
  permanentDelete s id :=
    ((repository.hardDelete s id).1.mapError .repository, (repository.hardDelete s id).2)

/-- `CrudServiceAdapter`. -/
def CrudServiceAdapter.calls {σ E : Type} (Refusal : Type) (repository : CrudRepository σ E) :
    TrashCalls σ E (ServiceError Refusal) :=
  adapterCalls Refusal repository

/-- `SimpleCrudServiceAdapter`. -/
def SimpleCrudServiceAdapter.calls {σ E : Type} (Refusal : Type)
    (repository : CrudRepository σ E) : TrashCalls σ E (ServiceError Refusal) :=
  adapterCalls Refusal repository

/-- `SearchableCrudServiceAdapter`. -/
def SearchableCrudServiceAdapter.calls {σ E : Type} (Refusal : Type)
    (repository : CrudRepository σ E) : TrashCalls σ E (ServiceError Refusal) :=
  adapterCalls Refusal repository

/-- The service entry points that delete for good. -/
inductive EntryPoint where
  | genericHardDelete
  | genericPermanentDelete
  | crudServiceAdapter
  | simpleCrudServiceAdapter
  | searchableCrudServiceAdapter
deriving DecidableEq, Repr

/-- The calls behind an entry point; the adapters are over the repository of the service. -/
def EntryPoint.calls {σ E Refusal : Type} (svc : GenericCrudService σ E Refusal) :
    EntryPoint → TrashCalls σ E (ServiceError Refusal)
  | .genericHardDelete => ⟨svc.getDeletedById, svc.restore, svc.hardDelete⟩
  | .genericPermanentDelete => ⟨svc.getDeletedById, svc.restore, svc.permanentDelete⟩
  | .crudServiceAdapter => CrudServiceAdapter.calls Refusal svc.repository
  | .simpleCrudServiceAdapter => SimpleCrudServiceAdapter.calls Refusal svc.repository
  | .searchableCrudServiceAdapter => SearchableCrudServiceAdapter.calls Refusal svc.repository

/-! ## What a state holds -/

/-- The live row of an id and the one in the trash, and the entity a row reads as. -/
structure Contents (σ ρ E : Type) where
  active : σ → String → Option ρ
  trashed : σ → String → Option ρ
  read : ρ → Except RepositoryError E

/-- What the two maps of the in-memory repository hold. -/
def InMemoryRepository.contents (E : Type) : Contents (InMemoryRepository E) E E where
  active repo id := repo.store.lookup id
  trashed repo id := repo.trash.lookup id
  read := .ok

/-- What a table holds, by its `deleted_at`. -/
def Table.contents {ρ E : Type} (fromRow : Row ρ → Except String E) :
    Contents (Table ρ) (Row ρ) E where
  active t id := (t.selectByIdIncludingDeleted id).filter (·.deletedAt.isNone)
  trashed t id := (t.selectByIdIncludingDeleted id).filter (·.deletedAt.isSome)
  read row := (fromRow row).mapError .databaseError

/-- A service keeps to the trash when it is asked about an id: it removes no live row and no other
row, it answers `false` and changes nothing where the row is live, and it answers with soft-deleted
rows only. -/
structure KeepsToTrash {σ ρ E Err : Type} (c : Contents σ ρ E) (calls : TrashCalls σ E Err) (s : σ)
    (id : String) : Prop where
  active : ∀ k, c.active (calls.permanentDelete s id).2 k = c.active s k
  trashed : ∀ k, k ≠ id → c.trashed (calls.permanentDelete s id).2 k = c.trashed s k
  refuses : (c.active s id).isSome → calls.permanentDelete s id = (.ok false, s)
  answers : ∀ e, calls.getDeletedById s id = .ok (some e) →
    ∃ row, c.trashed s id = some row ∧ c.read row = .ok e
  restores : ∀ now e, (calls.restore s id now).1 = .ok (some e) → (c.trashed s id).isSome

/-! ## What the repositories do -/

/-- A repository asks for a row whether it is deleted or not, the live one first, removes it whether it
is deleted or not, and restores from the trash alone. -/
structure Serves {σ ρ E : Type} (repo : CrudRepository σ E) (c : Contents σ ρ E) : Prop where
  find : ∀ s id, repo.findByIdIncludingDeleted s id =
    ((c.active s id).or (c.trashed s id)).elim (.ok none) fun row => (c.read row).map some
  deleted : ∀ s id, (repo.hardDelete s id).1 =
    .ok ((c.active s id).isSome || (c.trashed s id).isSome)
  active : ∀ s id k, k ≠ id → c.active (repo.hardDelete s id).2 k = c.active s k
  trashed : ∀ s id k, k ≠ id → c.trashed (repo.hardDelete s id).2 k = c.trashed s k
  gone : ∀ s id, c.active (repo.hardDelete s id).2 id = none
  restore : ∀ s id now e, (repo.restore s id now).1 = .ok (some e) → (c.trashed s id).isSome

theorem decide_mem_finmap {V : Type} (m : Finmap fun _ : String => V) (id : String) :
    decide (id ∈ m) = (m.lookup id).isSome := by
  rw [Bool.eq_iff_iff, decide_eq_true_iff, Finmap.lookup_isSome]

theorem InMemoryRepository.serves (E : Type) [PersistentEntity E] :
    Serves (InMemoryRepository.crud E) (InMemoryRepository.contents E) where
  find := by
    intro repo id
    simp only [crud, contents, InMemoryRepository.findByIdIncludingDeleted]
    cases repo.store.lookup id <;> cases repo.trash.lookup id <;> rfl
  deleted := by
    intro repo id
    simp only [crud, contents, InMemoryRepository.hardDelete, decide_mem_finmap]
  active := by
    intro repo id k hk
    exact Finmap.lookup_erase_ne hk
  trashed := by
    intro repo id k hk
    exact Finmap.lookup_erase_ne hk
  gone := by
    intro repo id
    exact Finmap.lookup_erase id repo.store
  restore := by
    intro repo id now e h
    simp only [crud, contents, InMemoryRepository.restore] at h ⊢
    cases hlook : repo.trash.lookup id with
    | none => simp [hlook] at h
    | some row => rfl

namespace Table

variable {ρ E : Type} {id : String} (t : Table ρ) {t : Table ρ}

/-- Under the primary key, an id names one row. -/
theorem select_eq_some {r : Row ρ} :
    t.selectByIdIncludingDeleted id = some r ↔ r ∈ t.rows ∧ r.id = id := by
  constructor
  · intro h
    exact ⟨List.mem_of_find?_eq_some h, by simpa using List.find?_some h⟩
  · rintro ⟨hr, hid⟩
    cases hfound : t.selectByIdIncludingDeleted id with
    | none =>
      have hnone := List.find?_eq_none.mp hfound r hr
      simp [hid] at hnone
    | some r' =>
      have hr' := List.mem_of_find?_eq_some hfound
      have hid' : r'.id = id := by simpa using List.find?_some hfound
      rw [List.inj_on_of_nodup_map t.primaryKey hr' hr (hid'.trans hid.symm)]

theorem select_hardDelete_ne {k : String} (hk : k ≠ id) :
    (t.hardDeleteQuery id).2.selectByIdIncludingDeleted k = t.selectByIdIncludingDeleted k := by
  apply Option.ext
  intro r
  rw [select_eq_some, select_eq_some]
  simp only [hardDeleteQuery, List.mem_filter]
  constructor
  · rintro ⟨⟨hr, -⟩, hid⟩
    exact ⟨hr, hid⟩
  · rintro ⟨hr, rfl⟩
    exact ⟨⟨hr, by simpa using hk⟩, rfl⟩

theorem select_hardDelete_self (id : String) :
    (t.hardDeleteQuery id).2.selectByIdIncludingDeleted id = none := by
  rw [Option.eq_none_iff_forall_ne_some]
  intro r hr
  obtain ⟨hmem, hid⟩ := select_eq_some.mp hr
  simp [hardDeleteQuery, hid] at hmem

/-- An id with no live row. -/
theorem active_eq_none {fromRow : Row ρ → Except String E} :
    (contents fromRow).active t id = none ↔
      ¬ ∃ row ∈ t.rows, row.id = id ∧ row.deletedAt = none := by
  constructor
  · rintro h ⟨row, hrow, hid, hlive⟩
    simp [contents, select_eq_some.mpr ⟨hrow, hid⟩, hlive, Option.filter] at h
  · intro h
    rw [Option.eq_none_iff_forall_ne_some]
    intro row hrow
    simp only [contents, Option.filter_eq_some_iff, Option.isNone_iff_eq_none] at hrow
    obtain ⟨hmem, hid⟩ := select_eq_some.mp hrow.1
    exact h ⟨row, hmem, hid, hrow.2⟩

/-- Some row is removed just when the id names one. -/
theorem hardDelete_count (id : String) :
    decide ((t.hardDeleteQuery id).1 > 0) = (t.selectByIdIncludingDeleted id).isSome := by
  rw [Bool.eq_iff_iff, decide_eq_true_iff]
  simp [hardDeleteQuery, selectByIdIncludingDeleted, List.length_pos_iff_exists_mem]

end Table

theorem PostgresRepository.serves {ρ E : Type} (fromRow : Row ρ → Except String E) :
    Serves (PostgresRepository fromRow) (Table.contents fromRow) where
  find := by
    intro t id
    simp only [PostgresRepository, Table.contents]
    cases t.selectByIdIncludingDeleted id with
    | none => rfl
    | some row => cases hdeleted : row.deletedAt <;> simp [Option.filter, hdeleted]
  deleted := by
    intro t id
    simp only [PostgresRepository, Table.contents, Table.hardDelete_count]
    cases t.selectByIdIncludingDeleted id with
    | none => rfl
    | some row => cases hdeleted : row.deletedAt <;> simp [Option.filter, hdeleted]
  active := by
    intro t id k hk
    simp only [PostgresRepository, Table.contents, t.select_hardDelete_ne hk]
  trashed := by
    intro t id k hk
    simp only [PostgresRepository, Table.contents, t.select_hardDelete_ne hk]
  gone := by
    intro t id
    simp only [PostgresRepository, Table.contents, t.select_hardDelete_self, Option.filter_none]
  restore := by
    intro t id now e h
    simp only [PostgresRepository, Table.restoreQuery, Table.contents] at h ⊢
    cases hrows : t.rows.filter (Table.restores id) with
    | nil => simp [hrows] at h
    | cons row rest =>
      have hrow : row ∈ t.rows.filter (Table.restores id) := by
        rw [hrows]
        exact List.mem_cons_self
      obtain ⟨hmem, hrestores⟩ := List.mem_filter.mp hrow
      rw [Table.restores, Bool.and_eq_true, beq_iff_eq] at hrestores
      rw [Table.select_eq_some.mpr ⟨hmem, hrestores.1⟩]
      simp [Option.filter, hrestores.2]

/-! ## The services over them -/

/-- Calls that answer with what the repository answers, or with an error, and leave what it leaves, or
everything as it was. -/
structure PassesOn {σ E Err : Type} (repo : CrudRepository σ E) (calls : TrashCalls σ E Err) :
    Prop where
  get : ∀ s id e, calls.getDeletedById s id = .ok (some e) →
    repo.findByIdIncludingDeleted s id = .ok (some e)
  restore : ∀ s id now e, (calls.restore s id now).1 = .ok (some e) →
    (repo.restore s id now).1 = .ok (some e)
  state : ∀ s id, (calls.permanentDelete s id).2 = s ∨
    (calls.permanentDelete s id).2 = (repo.hardDelete s id).2
  refused : ∀ s id, (calls.permanentDelete s id).1 = .ok false →
    repo.findByIdIncludingDeleted s id = .ok none ∨ (repo.hardDelete s id).1 = .ok false

section

variable {σ E Refusal : Type} (svc : GenericCrudService σ E Refusal) {id : String}

theorem GenericCrudService.restore_some {s : σ} {now : ℤ} {e : E}
    (h : (svc.restore s id now).1 = .ok (some e)) :
    (svc.repository.restore s id now).1 = .ok (some e) := by
  unfold GenericCrudService.restore at h
  split at h
  case h_1 => cases h
  case h_2 => cases h
  case h_3 =>
    split at h
    case h_1 => cases h
    case h_2 =>
      split at h
      case h_1 => cases h
      case h_2 => cases h
      case h_3 heq =>
        rw [heq]
        split at h
        · cases h
        · exact congrArg Except.ok (Except.ok.inj h)

theorem GenericCrudService.hardDelete_state (s : σ) (id : String) :
    (svc.hardDelete s id).2 = s ∨ (svc.hardDelete s id).2 = (svc.repository.hardDelete s id).2 := by
  unfold GenericCrudService.hardDelete
  split
  case h_1 => exact .inl rfl
  case h_2 => exact .inl rfl
  case h_3 =>
    split
    case h_1 => exact .inl rfl
    case h_2 =>
      split
      case h_1 heq => exact .inr (by rw [heq])
      case h_2 heq => exact .inr (by rw [heq])
      case h_3 heq =>
        rw [heq]
        split <;> exact .inr rfl

theorem GenericCrudService.hardDelete_false {s : σ}
    (h : (svc.hardDelete s id).1 = .ok false) :
    svc.repository.findByIdIncludingDeleted s id = .ok none ∨
      (svc.repository.hardDelete s id).1 = .ok false := by
  unfold GenericCrudService.hardDelete at h
  split at h
  case h_1 => cases h
  case h_2 hget => exact .inl (mapError_eq_ok.mp hget)
  case h_3 =>
    split at h
    case h_1 => cases h
    case h_2 =>
      split at h
      case h_1 => cases h
      case h_2 heq => exact .inr (by rw [heq])
      case h_3 => split at h <;> cases h

theorem GenericCrudService.passesOn :
    PassesOn svc.repository ⟨svc.getDeletedById, svc.restore, svc.hardDelete⟩ where
  get := fun _ _ _ h => mapError_eq_ok.mp h
  restore := fun _ _ _ _ h => svc.restore_some h
  state := svc.hardDelete_state
  refused := fun _ _ h => svc.hardDelete_false h

theorem adapterCalls_passOn (repo : CrudRepository σ E) :
    PassesOn repo (adapterCalls Refusal repo) where
  get := fun _ _ _ h => mapError_eq_ok.mp h
  restore := fun _ _ _ _ h => mapError_eq_ok.mp h
  state := fun _ _ => .inr rfl
  refused := fun _ _ h => .inr (mapError_eq_ok.mp h)

theorem EntryPoint.passesOn (p : EntryPoint) : PassesOn svc.repository (p.calls svc) := by
  cases p with
  | genericHardDelete => exact svc.passesOn
  | genericPermanentDelete => exact svc.passesOn
  | crudServiceAdapter => exact adapterCalls_passOn svc.repository
  | simpleCrudServiceAdapter => exact adapterCalls_passOn svc.repository
  | searchableCrudServiceAdapter => exact adapterCalls_passOn svc.repository

end

section

variable {σ ρ E Err : Type} {c : Contents σ ρ E} {repo : CrudRepository σ E}
  {calls : TrashCalls σ E Err} {s : σ} {id : String}

theorem keepsToTrash_of_notActive (hrepo : Serves repo c) (hcalls : PassesOn repo calls)
    (hnone : c.active s id = none) : KeepsToTrash c calls s id where
  active := by
    intro k
    rcases hcalls.state s id with h | h
    · rw [h]
    · rw [h]
      by_cases hk : k = id
      · rw [hk, hrepo.gone, hnone]
      · exact hrepo.active s id k hk
  trashed := by
    intro k hk
    rcases hcalls.state s id with h | h
    · rw [h]
    · rw [h, hrepo.trashed s id k hk]
  refuses := by
    intro hsome
    simp [hnone] at hsome
  answers := by
    intro e he
    have hfind := hcalls.get s id e he
    rw [hrepo.find, hnone, Option.none_or] at hfind
    cases htrash : c.trashed s id with
    | none => simp [htrash] at hfind
    | some row =>
      refine ⟨row, rfl, ?_⟩
      rw [htrash, Option.elim_some] at hfind
      cases hread : c.read row with
      | error e' => simp [hread, Except.map] at hfind
      | ok e' => simpa [hread, Except.map] using hfind
  restores := fun now e he => hrepo.restore s id now e (hcalls.restore s id now e he)

/-- Where the row is live, the answer is never `false`. -/
theorem not_refused_of_active (hrepo : Serves repo c) (hcalls : PassesOn repo calls)
    (hsome : (c.active s id).isSome) : (calls.permanentDelete s id).1 ≠ .ok false := by
  obtain ⟨row, hrow⟩ := Option.isSome_iff_exists.mp hsome
  intro h
  rcases hcalls.refused s id h with hfind | hdelete
  · rw [hrepo.find, hrow, Option.some_or, Option.elim_some] at hfind
    cases hread : c.read row with
    | error e => simp [hread, Except.map] at hfind
    | ok e => simp [hread, Except.map] at hfind
  · simp [hrepo.deleted, hrow] at hdelete

theorem keepsToTrash_iff (hrepo : Serves repo c) (hcalls : PassesOn repo calls) :
    KeepsToTrash c calls s id ↔ c.active s id = none := by
  constructor
  · intro h
    by_contra hactive
    have hsome : (c.active s id).isSome := Option.isSome_iff_ne_none.mpr hactive
    exact not_refused_of_active hrepo hcalls hsome (congrArg Prod.fst (h.refuses hsome))
  · exact keepsToTrash_of_notActive hrepo hcalls

end

/-- In every state the in-memory repository reaches and for every table, a service keeps to the trash
for an id exactly when the id has no live row. -/
theorem keepsToTrash_iff_notActive (p : EntryPoint) (id : String) :
    (∀ (E Refusal : Type) [PersistentEntity E] (ws : List (Write E))
      (consulted : Consulted E Refusal),
      KeepsToTrash (InMemoryRepository.contents E) (p.calls ⟨consulted, InMemoryRepository.crud E⟩)
          (run InMemoryRepository.step .new ws) id ↔
        id ∉ (run InMemoryRepository.step (.new : InMemoryRepository E) ws).store) ∧
    ∀ (ρ E Refusal : Type) (fromRow : Row ρ → Except String E) (t : Table ρ)
      (consulted : Consulted E Refusal),
      KeepsToTrash (Table.contents fromRow) (p.calls ⟨consulted, PostgresRepository fromRow⟩) t id ↔
        ¬ ∃ row ∈ t.rows, row.id = id ∧ row.deletedAt = none := by
  refine ⟨?_, ?_⟩
  · intro E Refusal _ ws consulted
    have hcalls := p.passesOn
      (⟨consulted, InMemoryRepository.crud E⟩ : GenericCrudService _ E Refusal)
    exact (keepsToTrash_iff (InMemoryRepository.serves E) hcalls).trans Finmap.lookup_eq_none
  · intro ρ E Refusal fromRow t consulted
    have hcalls := p.passesOn
      (⟨consulted, PostgresRepository fromRow⟩ : GenericCrudService _ E Refusal)
    exact (keepsToTrash_iff (PostgresRepository.serves fromRow) hcalls).trans Table.active_eq_none

/-- A service nobody refuses anything. -/
def Consulted.admitting (E : Type) : Consulted E Empty where
  consult _ _ _ := .ok ()
  beforeRestore _ := .ok ()
  beforeHardDelete _ := .ok ()
  hookBefore _ := .ok ()
  hookAfter _ := .ok ()

/-- A live row of a table is deleted for good. -/
def liveRow : Table Unit where
  rows := [⟨"a", none, 0, ()⟩]
  primaryKey := by decide

theorem liveRow_deleted :
    ¬ ∀ (t : Table Unit) (id : String),
      KeepsToTrash (Table.contents fun _ => .ok ())
        (EntryPoint.calls ⟨.admitting Unit, PostgresRepository fun _ => .ok ()⟩ .genericHardDelete)
        t id := by
  intro h
  have hfalse := congrArg Prod.fst ((h liveRow "a").refuses (by decide))
  cases hfalse

end Backbone.Persistence
