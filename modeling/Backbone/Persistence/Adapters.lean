import Backbone.Persistence.Paging

/-!
# Adapters over the in-memory repository

Three adapters serve a repository's rows as a service. They look a row up and then write: `upsert` under
the id of the entity it is given, `update` under the id it is told. `AdapterRight` is what the two
promise: the row under the entity's id holds the entity's values, another `upsert` of it changes no value,
and no row but the one named is touched. `AdapterMeets` is the condition on a call and the state it finds
under which the adapters keep the promise.

The adapters with mappers save the row an `upsert` finds and not the entity it was given; an `update`
writes under the id its new values carry, whichever was named. Without an id of its own an entity is
created anew each time.

Reference: `backbone-core/src/persistence/adapter.rs`.
-/

namespace Backbone.Persistence

open Machine

/-! ## Values up to timestamps -/

section Values

variable {E : Type} [PersistentEntity E] {e e' : E}

/-- One entity is the other with a timestamp set. -/
def Restamped (e e' : E) : Prop := ∃ t, e' = setCreatedAt t e ∨ e' = setUpdatedAt t e

/-- The two entities agree up to their timestamps. -/
def SameValues : E → E → Prop := Relation.EqvGen Restamped

theorem SameValues.refl (e : E) : SameValues e e := Relation.EqvGen.refl e

theorem SameValues.symm (h : SameValues e e') : SameValues e' e :=
  Relation.EqvGen.symm _ _ h

theorem SameValues.trans {e'' : E} (h : SameValues e e') (h' : SameValues e' e'') :
    SameValues e e'' :=
  Relation.EqvGen.trans _ _ _ h h'

theorem sameValues_setUpdatedAt (t : ℤ) (e : E) : SameValues (setUpdatedAt t e) e :=
  (Relation.EqvGen.rel _ _ ⟨t, .inr rfl⟩).symm

theorem sameValues_setCreatedAt (t : ℤ) (e : E) : SameValues (setCreatedAt t e) e :=
  (Relation.EqvGen.rel _ _ ⟨t, .inl rfl⟩).symm

/-- A created entity has the values of the one that was given, under its id. -/
theorem Draft.sameValues_stamped (d : Draft E) : SameValues d.stamped d.identified := by
  unfold Draft.stamped
  apply (sameValues_setUpdatedAt _ _).trans
  split
  · exact sameValues_setCreatedAt _ _
  · exact .refl _

/-- What no timestamp changes is the same in entities that agree up to them. -/
theorem SameValues.eq_of {V : Type} {f : E → V} (hcreated : ∀ t e, f (setCreatedAt t e) = f e)
    (hupdated : ∀ t e, f (setUpdatedAt t e) = f e) (h : SameValues e e') : f e = f e' := by
  induction h with
  | rel e e' hrel =>
    obtain ⟨t, rfl | rfl⟩ := hrel
    · exact (hcreated t e).symm
    · exact (hupdated t e).symm
  | refl e => rfl
  | symm e e' _ ih => exact ih.symm
  | trans e e' e'' _ _ ih ih' => exact ih.trans ih'

end Values

/-! ## The adapters -/

/-- What `generate_id` answers: the text of a UUID. -/
structure GeneratedId where
  text : String
  ne_empty : text ≠ ""

/-- The errors of `AdapterError` these calls answer with. -/
inductive AdapterError where
  | repository (refused : RepositoryError)
deriving DecidableEq, Repr

namespace InMemoryRepository

variable {E : Type} [PersistentEntity E]

/-- A repository's answer as an adapter passes it on. -/
def adapted (r : Except RepositoryError E × InMemoryRepository E) :
    Except AdapterError E × InMemoryRepository E :=
  (r.1.mapError .repository, r.2)

/-- `create` of an entity, through an adapter. -/
def createThrough (repo : InMemoryRepository E) (entity : E) (fresh : GeneratedId) (now : ℤ) :
    Except AdapterError E × InMemoryRepository E :=
  adapted (repo.create ⟨entity, fresh.text, now⟩)

/-- `update` of an adapter: the row under `id` is looked up, and what `written` makes of it is saved. -/
def updateThrough (written : E → E) (repo : InMemoryRepository E) (id : String) (now : ℤ) :
    Except AdapterError (Option E) × InMemoryRepository E :=
  match repo.findById id with
  | none => (.ok none, repo)
  | some entity =>
    ((adapted (repo.update (written entity) now)).1.map some,
      (adapted (repo.update (written entity) now)).2)

/-- `upsert` of an adapter: the row under the entity's id is looked up, and what `saved` makes of it and
the entity is saved; without such a row the entity is created. -/
def upsertThrough (saved : E → E → E) (repo : InMemoryRepository E) (entity : E)
    (fresh : GeneratedId) (now : ℤ) : Except AdapterError E × InMemoryRepository E :=
  match repo.findById (entityId entity) with
  | some existing => adapted (repo.update (saved existing entity) now)
  | none => repo.createThrough entity fresh now

end InMemoryRepository

open InMemoryRepository

/-- A call that writes, with what the clock and the id generator answer during it. -/
inductive ServiceCall (C U : Type) where
  | create (dto : C) (fresh : GeneratedId) (now : ℤ)
  | update (id : String) (dto : U) (now : ℤ)
  | upsert (dto : C) (fresh : GeneratedId) (now : ℤ)

/-- The calls of an adapter that write, and the entity it makes of what it is given. -/
structure ServiceWrites (E C U : Type) where
  entity : C → E
  create : InMemoryRepository E → C → GeneratedId → ℤ → Except AdapterError E × InMemoryRepository E
  update : InMemoryRepository E → String → U → ℤ →
    Except AdapterError (Option E) × InMemoryRepository E
  upsert : InMemoryRepository E → C → GeneratedId → ℤ → Except AdapterError E × InMemoryRepository E

/-- The repository a call leaves. -/
def ServiceWrites.step {E C U : Type} (S : ServiceWrites E C U) (repo : InMemoryRepository E) :
    ServiceCall C U → InMemoryRepository E
  | .create dto fresh now => (S.create repo dto fresh now).2
  | .update id dto now => (S.update repo id dto now).2
  | .upsert dto fresh now => (S.upsert repo dto fresh now).2

/-- `CrudServiceAdapter`: its mappers. -/
structure CrudServiceAdapter (E C U : Type) where
  createMapper : C → E
  updateMapper : E → U → E

/-- `SearchableCrudServiceAdapter`: its mappers. -/
structure SearchableCrudServiceAdapter (E C U : Type) where
  createMapper : C → E
  updateMapper : E → U → E

section Adapters

variable {E C U : Type} [PersistentEntity E]

/-- The writes of an adapter with mappers. An `upsert` saves the row it finds. -/
def mappedWrites (createMapper : C → E) (updateMapper : E → U → E) : ServiceWrites E C U where
  entity := createMapper
  create repo dto fresh now := repo.createThrough (createMapper dto) fresh now
  update repo id dto now := repo.updateThrough (fun entity => updateMapper entity dto) id now
  upsert repo dto fresh now :=
    repo.upsertThrough (fun existing _ => existing) (createMapper dto) fresh now

/-- The writes of `CrudServiceAdapter`. -/
def CrudServiceAdapter.writes (A : CrudServiceAdapter E C U) : ServiceWrites E C U :=
  mappedWrites A.createMapper A.updateMapper

/-- The writes of `SearchableCrudServiceAdapter`. -/
def SearchableCrudServiceAdapter.writes (A : SearchableCrudServiceAdapter E C U) :
    ServiceWrites E C U :=
  mappedWrites A.createMapper A.updateMapper

/-- The writes of `SimpleCrudServiceAdapter`: the entity is saved as it is given, under its own id. -/
def SimpleCrudServiceAdapter.writes : ServiceWrites E E E where
  entity := id
  create repo entity fresh now := repo.createThrough entity fresh now
  update repo id entity now := repo.updateThrough (fun _ => entity) id now
  upsert repo entity fresh now := repo.upsertThrough (fun _ entity => entity) entity fresh now

end Adapters

/-! ## What a call promises -/

section Promise

variable {E C U : Type} [PersistentEntity E]

/-- The two repositories hold the same rows up to timestamps. -/
def SameRows (repo repo' : InMemoryRepository E) : Prop :=
  (∀ id, Option.Rel SameValues (repo.findById id) (repo'.findById id)) ∧ repo'.trash = repo.trash

/-- The row under `id` holds the entity's values. -/
def RowHolds (repo : InMemoryRepository E) (id : String) (entity : E) : Prop :=
  ∃ row, repo.findById id = some row ∧ SameValues row entity

/-- No row but the one under `id` is another in the second repository. -/
def OnlyAt (id : String) (repo repo' : InMemoryRepository E) : Prop :=
  (∀ k, k ≠ id → repo'.findById k = repo.findById k) ∧ repo'.trash = repo.trash

/-- What a call promises. Nothing is asked of `create`. -/
def ServiceWrites.Right (S : ServiceWrites E C U) (repo : InMemoryRepository E) :
    ServiceCall C U → Prop
  | .create _ _ _ => True
  | .update id dto now => OnlyAt id repo (S.update repo id dto now).2
  | .upsert dto fresh now =>
    (∀ entity, (S.upsert repo dto fresh now).1 = .ok entity →
        RowHolds (S.upsert repo dto fresh now).2 (entityId (S.entity dto)) (S.entity dto)) ∧
      ∀ fresh' now', SameRows (S.upsert repo dto fresh now).2
        (S.upsert (S.upsert repo dto fresh now).2 dto fresh' now').2

/-- Saving the entity touches no row but the one under `id`: it carries that id, or one that is not
stored, or it is stored as it is. -/
def StaysAt (repo : InMemoryRepository E) (id : String) (now : ℤ) (entity : E) : Prop :=
  entityId entity = id ∨ repo.findById (entityId entity) = none ∨
    repo.findById (entityId entity) = some (setUpdatedAt now entity)

/-- The condition on an `update` that finds its row. -/
def UpdateStays (written : E → E) (repo : InMemoryRepository E) (id : String) (now : ℤ) : Prop :=
  ∀ found, repo.findById id = some found → StaysAt repo id now (written found)

/-- The condition on an `upsert`: what is saved over a row has the values given, and what is created has
an id. -/
def UpsertKeeps (saved : E → E → E) (repo : InMemoryRepository E) (entity : E) : Prop :=
  (∀ existing, repo.findById (entityId entity) = some existing →
      SameValues (saved existing entity) entity) ∧
    (repo.findById (entityId entity) = none → entityId entity ≠ "")

/-- The condition on a call through an adapter with mappers. -/
def MappedMeets (createMapper : C → E) (updateMapper : E → U → E) (repo : InMemoryRepository E) :
    ServiceCall C U → Prop
  | .create _ _ _ => True
  | .update id dto now => UpdateStays (fun entity => updateMapper entity dto) repo id now
  | .upsert dto _ _ => UpsertKeeps (fun existing _ => existing) repo (createMapper dto)

/-- The condition on a call through the simple adapter. -/
def SimpleMeets (repo : InMemoryRepository E) : ServiceCall E E → Prop
  | .create _ _ _ => True
  | .update id entity now => UpdateStays (fun _ => entity) repo id now
  | .upsert entity _ _ => UpsertKeeps (fun _ entity => entity) repo entity

end Promise

/-- A call through one of the three adapters. -/
inductive AdapterCall (E C U C' U' : Type) where
  | crud (call : ServiceCall C U)
  | simple (call : ServiceCall E E)
  | searchable (call : ServiceCall C' U')

section Shared

variable {E C U C' U' : Type} [PersistentEntity E]
  (A : CrudServiceAdapter E C U) (B : SearchableCrudServiceAdapter E C' U')

/-- The repository a call through an adapter leaves. -/
def adapterStep (repo : InMemoryRepository E) : AdapterCall E C U C' U' → InMemoryRepository E
  | .crud call => A.writes.step repo call
  | .simple call => SimpleCrudServiceAdapter.writes.step repo call
  | .searchable call => B.writes.step repo call

/-- What a call through an adapter promises. -/
def AdapterRight (repo : InMemoryRepository E) : AdapterCall E C U C' U' → Prop
  | .crud call => A.writes.Right repo call
  | .simple call => SimpleCrudServiceAdapter.writes.Right repo call
  | .searchable call => B.writes.Right repo call

/-- The condition on a call through an adapter. -/
def AdapterMeets (repo : InMemoryRepository E) : AdapterCall E C U C' U' → Prop
  | .crud call => MappedMeets A.createMapper A.updateMapper repo call
  | .simple call => SimpleMeets repo call
  | .searchable call => MappedMeets B.createMapper B.updateMapper repo call

end Shared

/-! ## The writes, read back -/

namespace InMemoryRepository

variable {E : Type} [PersistentEntity E] {saved : E → E → E} {entity : E}
  {repo : InMemoryRepository E} {x : E}

/-- What an adapter may save over a row: the row, or what it was given. -/
def SavesOne (saved : E → E → E) : Prop :=
  (∀ existing entity, saved existing entity = existing) ∨
    ∀ existing entity, saved existing entity = entity

theorem SavesOne.entityId_eq (h : SavesOne saved) {existing : E}
    (hid : entityId existing = entityId entity) :
    entityId (saved existing entity) = entityId entity := by
  rcases h with h | h
  · rw [h, hid]
  · rw [h]

/-- What a row of the entity's values is saved as has its values. -/
theorem SavesOne.sameValues (h : SavesOne saved) (hsame : SameValues x entity) :
    SameValues x (saved x entity) := by
  rcases h with h | h
  · rw [h]
    exact .refl x
  · rw [h]
    exact hsame

/-- So has what was saved over a row, saved again. -/
theorem SavesOne.sameValues_again (h : SavesOne saved) (existing entity : E) (now : ℤ) :
    SameValues (setUpdatedAt now (saved existing entity))
      (saved (setUpdatedAt now (saved existing entity)) entity) := by
  rcases h with h | h
  · rw [h (setUpdatedAt now (saved existing entity))]
    exact .refl _
  · rw [h, h]
    exact sameValues_setUpdatedAt now entity

theorem trash_update (repo : InMemoryRepository E) (entity : E) (now : ℤ) :
    (repo.update entity now).2.trash = repo.trash := by
  unfold update
  split <;> rfl

theorem update_ok (h : repo.findById (entityId entity) = some x) (now : ℤ) :
    (repo.update entity now).1 = .ok (setUpdatedAt now entity) := by
  unfold update
  rw [if_pos (Finmap.mem_of_lookup_eq_some h)]

variable [LawfulEntity E] {now : ℤ} {id : String}

theorem findById_update (repo : InMemoryRepository E) (entity : E) (now : ℤ) (k : String) :
    (repo.update entity now).2.findById k =
      if k = entityId entity ∧ (repo.findById k).isSome then some (setUpdatedAt now entity)
      else repo.findById k := by
  simp only [findById, Finmap.lookup_isSome]
  unfold update
  by_cases hmem : entityId entity ∈ repo.store
  · rw [if_pos hmem]
    simp only [LawfulEntity.entityId_setUpdatedAt]
    by_cases hk : k = entityId entity
    · rw [if_pos ⟨hk, hk ▸ hmem⟩, hk, Finmap.lookup_insert]
    · rw [if_neg fun h => hk h.1, Finmap.lookup_insert_of_ne _ hk]
  · rw [if_neg hmem, if_neg]
    rintro ⟨rfl, hk⟩
    exact hmem hk

/-- A created entity is the one row that is new. -/
theorem createThrough_of_free {fresh : GeneratedId}
    (h : Draft.id ⟨entity, fresh.text, now⟩ ∉ repo.store) :
    repo.createThrough entity fresh now =
      (.ok (Draft.stamped ⟨entity, fresh.text, now⟩),
        ⟨repo.store.insert (Draft.id ⟨entity, fresh.text, now⟩)
          (Draft.stamped ⟨entity, fresh.text, now⟩), repo.trash⟩) := by
  rw [createThrough, create_of_notMem h]
  rfl

/-! ## Saving over a row -/

/-- An entity saved over a row of its values changes none. -/
theorem sameRows_update (hx : repo.findById (entityId entity) = some x)
    (hsame : SameValues x entity) (now : ℤ) : SameRows repo (repo.update entity now).2 := by
  refine ⟨fun k => ?_, trash_update repo entity now⟩
  rw [findById_update]
  split
  case isTrue hk =>
    rw [hk.1, hx]
    exact .some (hsame.trans (sameValues_setUpdatedAt now entity).symm)
  case isFalse =>
    cases repo.findById k with
    | none => exact .none
    | some y => exact .some (.refl y)

theorem onlyAt_update_iff :
    OnlyAt id repo (repo.update entity now).2 ↔ StaysAt repo id now entity := by
  constructor
  · rintro ⟨hrows, -⟩
    by_cases hid : entityId entity = id
    · exact .inl hid
    · have hrow := hrows (entityId entity) hid
      rw [findById_update] at hrow
      cases hfound : repo.findById (entityId entity) with
      | none => exact .inr (.inl hfound)
      | some x =>
        rw [if_pos ⟨rfl, by rw [hfound]; rfl⟩] at hrow
        exact .inr (.inr (hfound ▸ hrow.symm))
  · intro hstays
    refine ⟨fun k hk => ?_, trash_update repo entity now⟩
    rw [findById_update]
    split
    case isTrue hwritten =>
      obtain ⟨rfl, hsome⟩ := hwritten
      rcases hstays with hid | hnone | hsame
      · exact absurd hid hk
      · rw [hnone] at hsome
        cases hsome
      · exact hsame.symm
    case isFalse => rfl

theorem onlyAt_updateThrough_iff {written : E → E} :
    OnlyAt id repo (repo.updateThrough written id now).2 ↔ UpdateStays written repo id now := by
  unfold updateThrough UpdateStays
  cases hfound : repo.findById id with
  | none => simp [OnlyAt]
  | some found =>
    simp only [Option.some.injEq, forall_eq']
    exact onlyAt_update_iff

/-! ## Upserts -/

/-- An upsert of what a row holds already changes no value. -/
theorem sameRows_upsertThrough (hx : repo.findById (entityId entity) = some x)
    (hid : entityId (saved x entity) = entityId entity) (hsame : SameValues x (saved x entity))
    (fresh : GeneratedId) (now : ℤ) :
    SameRows repo (repo.upsertThrough saved entity fresh now).2 := by
  unfold upsertThrough
  rw [hx]
  exact sameRows_update (hid ▸ hx) hsame now

omit [PersistentEntity E] [LawfulEntity E] in
/-- An id that is not taken can be generated. -/
theorem exists_free (repo : InMemoryRepository E) : ∃ fresh : GeneratedId, fresh.text ∉ repo.store := by
  have hinfinite : Infinite String :=
    Infinite.of_injective (fun cs : List Char => String.ofList cs) fun _ _ h => String.ofList_injective h
  obtain ⟨text, htext⟩ := Infinite.exists_notMem_finset (insert "" repo.store.keys)
  rw [Finset.mem_insert, not_or, Finmap.mem_keys] at htext
  exact ⟨⟨text, htext.1⟩, htext.2⟩

/-- What an upsert promises. -/
def UpsertRight (saved : E → E → E) (repo : InMemoryRepository E) (entity : E) (fresh : GeneratedId)
    (now : ℤ) : Prop :=
  (∀ e, (repo.upsertThrough saved entity fresh now).1 = .ok e →
      RowHolds (repo.upsertThrough saved entity fresh now).2 (entityId entity) entity) ∧
    ∀ fresh' now', SameRows (repo.upsertThrough saved entity fresh now).2
      ((repo.upsertThrough saved entity fresh now).2.upsertThrough saved entity fresh' now').2

/-- Over a row, the promise is that what is saved has the values given. -/
theorem upsertRight_iff_of_some (hsaved : SavesOne saved)
    (hx : repo.findById (entityId entity) = some x) (hid : entityId x = entityId entity)
    (fresh : GeneratedId) (now : ℤ) :
    UpsertRight saved repo entity fresh now ↔ SameValues (saved x entity) entity := by
  have hsavedId := hsaved.entityId_eq hid
  have hfirst : repo.upsertThrough saved entity fresh now =
      adapted (repo.update (saved x entity) now) := by
    unfold upsertThrough
    rw [hx]
  have hrow : (repo.update (saved x entity) now).2.findById (entityId entity) =
      some (setUpdatedAt now (saved x entity)) := by
    rw [findById_update, if_pos ⟨hsavedId.symm, by rw [hx]; rfl⟩]
  have hok : (repo.update (saved x entity) now).1 = .ok (setUpdatedAt now (saved x entity)) :=
    update_ok (hsavedId ▸ hx) now
  unfold UpsertRight
  rw [hfirst]
  constructor
  · rintro ⟨hholds, -⟩
    obtain ⟨row, hfound, hsame⟩ := hholds (setUpdatedAt now (saved x entity)) (by rw [adapted, hok]; rfl)
    obtain rfl : setUpdatedAt now (saved x entity) = row :=
      Option.some.inj (hrow.symm.trans hfound)
    exact (sameValues_setUpdatedAt now _).symm.trans hsame
  · intro hsame
    refine ⟨fun e _ => ⟨_, hrow, (sameValues_setUpdatedAt now _).trans hsame⟩, fun fresh' now' => ?_⟩
    apply sameRows_upsertThrough hrow
    · apply hsaved.entityId_eq
      rw [LawfulEntity.entityId_setUpdatedAt, hsavedId]
    · exact hsaved.sameValues_again x entity now

/-- An entity with an id of its own is created as it should be. -/
theorem upsertRight_of_none (hsaved : SavesOne saved)
    (hnone : repo.findById (entityId entity) = none) (hid : entityId entity ≠ "")
    (fresh : GeneratedId) (now : ℤ) : UpsertRight saved repo entity fresh now := by
  have hown : Draft.identified ⟨entity, fresh.text, now⟩ = entity := by
    unfold Draft.identified
    rw [if_neg]
    simpa using hid
  have hdraft : Draft.id ⟨entity, fresh.text, now⟩ = entityId entity := by rw [Draft.id, hown]
  have hfree : Draft.id ⟨entity, fresh.text, now⟩ ∉ repo.store := by
    rw [hdraft]
    exact Finmap.lookup_eq_none.mp hnone
  have hfirst : repo.upsertThrough saved entity fresh now = repo.createThrough entity fresh now := by
    unfold upsertThrough
    rw [hnone]
  have hsame : SameValues (Draft.stamped ⟨entity, fresh.text, now⟩) entity := by
    have hstamped := Draft.sameValues_stamped ⟨entity, fresh.text, now⟩
    rwa [hown] at hstamped
  have hrow : (repo.createThrough entity fresh now).2.findById (entityId entity) =
      some (Draft.stamped ⟨entity, fresh.text, now⟩) := by
    rw [createThrough_of_free hfree, hdraft]
    exact Finmap.lookup_insert _
  unfold UpsertRight
  rw [hfirst]
  refine ⟨fun e _ => ⟨_, hrow, hsame⟩, fun fresh' now' => ?_⟩
  apply sameRows_upsertThrough hrow
  · apply hsaved.entityId_eq
    rw [Draft.entityId_stamped, hdraft]
  · exact hsaved.sameValues hsame

/-- An entity without an id is not: it is created under another, or on a second call. -/
theorem not_upsertRight_of_empty (hnone : repo.findById (entityId entity) = none)
    (hid : entityId entity = "") (fresh : GeneratedId) (now : ℤ) :
    ¬ UpsertRight saved repo entity fresh now := by
  have hdraft : ∀ fresh' : GeneratedId, ∀ now', Draft.id ⟨entity, fresh'.text, now'⟩ = fresh'.text := by
    intro fresh' now'
    simp [Draft.id, Draft.identified, hid]
  have hcall : ∀ fresh' now', repo.upsertThrough saved entity fresh' now' =
      repo.createThrough entity fresh' now' := by
    intro fresh' now'
    unfold upsertThrough
    rw [hnone]
  rintro ⟨hholds, hagain⟩
  by_cases hmem : fresh.text ∈ repo.store
  · -- refused: another id is drawn the next time
    have hrefused : (repo.upsertThrough saved entity fresh now).2 = repo := by
      rw [hcall, createThrough, create_of_mem (by rwa [hdraft])]
      rfl
    obtain ⟨fresh', hfree⟩ := repo.exists_free
    have hrow := (hagain fresh' now).1 fresh'.text
    rw [hrefused, hcall, createThrough_of_free (by rwa [hdraft]), hdraft] at hrow
    simp only [findById, Finmap.lookup_insert, Finmap.lookup_eq_none.mpr hfree] at hrow
    cases hrow
  · have hfree : Draft.id ⟨entity, fresh.text, now⟩ ∉ repo.store := by rwa [hdraft]
    rw [hcall, createThrough_of_free hfree, hdraft] at hholds
    obtain ⟨row, hrow, -⟩ := hholds _ rfl
    rw [hid] at hrow hnone
    simp only [findById, Finmap.lookup_insert_of_ne _ fresh.ne_empty.symm] at hrow hnone
    rw [hnone] at hrow
    cases hrow

theorem Indexed.upsertRight_iff (h : repo.Indexed) (hsaved : SavesOne saved) (entity : E)
    (fresh : GeneratedId) (now : ℤ) :
    UpsertRight saved repo entity fresh now ↔ UpsertKeeps saved repo entity := by
  unfold UpsertKeeps
  cases hfound : repo.findById (entityId entity) with
  | some x =>
    rw [upsertRight_iff_of_some hsaved hfound (h.store _ x hfound)]
    simp
  | none =>
    by_cases hid : entityId entity = ""
    · exact iff_of_false (not_upsertRight_of_empty hfound hid fresh now) fun hkeeps => hkeeps.2 rfl hid
    · exact iff_of_true (upsertRight_of_none hsaved hfound hid fresh now) ⟨by simp, fun _ => hid⟩

end InMemoryRepository

/-! ## Every run -/

section Runs

variable {E C U C' U' : Type} [PersistentEntity E] [LawfulEntity E] {repo : InMemoryRepository E}
  (A : CrudServiceAdapter E C U) (B : SearchableCrudServiceAdapter E C' U')

theorem mapped_right_iff (createMapper : C → E) (updateMapper : E → U → E) (h : repo.Indexed)
    (call : ServiceCall C U) :
    (mappedWrites createMapper updateMapper).Right repo call ↔
      MappedMeets createMapper updateMapper repo call := by
  cases call with
  | create dto fresh now => exact Iff.rfl
  | update id dto now => exact onlyAt_updateThrough_iff
  | upsert dto fresh now =>
    exact h.upsertRight_iff (.inl fun _ _ => rfl) (createMapper dto) fresh now

theorem simple_right_iff (h : repo.Indexed) (call : ServiceCall E E) :
    SimpleCrudServiceAdapter.writes.Right repo call ↔ SimpleMeets repo call := by
  cases call with
  | create entity fresh now => exact Iff.rfl
  | update id entity now => exact onlyAt_updateThrough_iff
  | upsert entity fresh now =>
    exact h.upsertRight_iff (.inr fun _ _ => rfl) entity fresh now

theorem adapterRight_iff (h : repo.Indexed) (call : AdapterCall E C U C' U') :
    AdapterRight A B repo call ↔ AdapterMeets A B repo call := by
  cases call with
  | crud call => exact mapped_right_iff A.createMapper A.updateMapper h call
  | simple call => exact simple_right_iff h call
  | searchable call => exact mapped_right_iff B.createMapper B.updateMapper h call

/-! The repository an adapter leaves is the one its writes leave. -/

theorem InMemoryRepository.Indexed.updateThrough (h : repo.Indexed) (written : E → E) (id : String)
    (now : ℤ) : (repo.updateThrough written id now).2.Indexed := by
  unfold InMemoryRepository.updateThrough
  split
  · exact h
  · exact h.step (.update _ now)

theorem InMemoryRepository.Indexed.upsertThrough (h : repo.Indexed) (saved : E → E → E) (entity : E)
    (fresh : GeneratedId) (now : ℤ) : (repo.upsertThrough saved entity fresh now).2.Indexed := by
  unfold InMemoryRepository.upsertThrough
  split
  · exact h.step (.update _ now)
  · exact h.create _

theorem InMemoryRepository.Indexed.mapped_step (h : repo.Indexed) (createMapper : C → E)
    (updateMapper : E → U → E) (call : ServiceCall C U) :
    ((mappedWrites createMapper updateMapper).step repo call).Indexed := by
  cases call with
  | create dto fresh now => exact h.create _
  | update id dto now => exact h.updateThrough _ id now
  | upsert dto fresh now => exact h.upsertThrough _ _ fresh now

theorem InMemoryRepository.Indexed.simple_step (h : repo.Indexed) (call : ServiceCall E E) :
    (SimpleCrudServiceAdapter.writes.step repo call).Indexed := by
  cases call with
  | create entity fresh now => exact h.create _
  | update id entity now => exact h.updateThrough _ id now
  | upsert entity fresh now => exact h.upsertThrough _ _ fresh now

theorem InMemoryRepository.Indexed.adapterStep (h : repo.Indexed) (call : AdapterCall E C U C' U') :
    (adapterStep A B repo call).Indexed := by
  cases call with
  | crud call => exact h.mapped_step A.createMapper A.updateMapper call
  | simple call => exact h.simple_step call
  | searchable call => exact h.mapped_step B.createMapper B.updateMapper call

/-- Whatever data a repository starts with and whatever was written to it, every call of a run through
the three adapters keeps its promise exactly when every call meets the condition. -/
theorem adapters_right_iff (A : CrudServiceAdapter E C U) (B : SearchableCrudServiceAdapter E C' U')
    (entities : List E) (ws : List (Write E)) (calls : List (AdapterCall E C U C' U')) :
    Along (adapterStep A B) (AdapterRight A B) (run step (withData entities) ws) calls ↔
      Along (adapterStep A B) (AdapterMeets A B) (run step (withData entities) ws) calls := by
  have hindexed : (run step (withData entities) ws).Indexed :=
    invariant_run step (fun _ w h => h.step w) ws (indexed_withData entities)
  exact along_iff_of_invariant (adapterStep A B) (fun _ call h _ => h.adapterStep A B call)
    (fun _ call h => adapterRight_iff A B h call) hindexed

end Runs

/-- A service over the entities of the tests whose mappers take the entity as it is. -/
def testAdapter : CrudServiceAdapter TestEntity TestEntity TestEntity := ⟨id, fun _ dto => dto⟩

/-- The simple adapter saves what it is given over a row, and an entity with an id is created. -/
theorem adapters_right_over_a_row :
    Along (adapterStep testAdapter ⟨testAdapter.createMapper, testAdapter.updateMapper⟩)
      (AdapterRight testAdapter ⟨testAdapter.createMapper, testAdapter.updateMapper⟩)
      (run step (withData [.named "a" "first"]) [])
      [.simple (.upsert (.named "a" "second") ⟨"f", by decide⟩ 5),
        .simple (.update "a" (.named "a" "third") 6),
        .crud (.create (.named "b" "fourth") ⟨"f", by decide⟩ 7)] := by
  apply (adapters_right_iff _ _ _ _ _).mpr
  refine ⟨⟨fun _ _ => .refl _, fun _ => ?_⟩, fun _ _ => .inl rfl, trivial, trivial⟩
  decide

/-- An upsert over a row leaves the row as it was. -/
theorem upsert_saves_what_it_finds :
    ¬ ∀ (entities : List TestEntity) (ws : List (Write TestEntity))
      (calls : List (AdapterCall TestEntity TestEntity TestEntity TestEntity TestEntity)),
      Along (adapterStep testAdapter ⟨testAdapter.createMapper, testAdapter.updateMapper⟩)
        (AdapterRight testAdapter ⟨testAdapter.createMapper, testAdapter.updateMapper⟩)
        (run step (withData entities) ws) calls := by
  intro h
  have hright := h [.named "a" "first"] [] [.crud (.upsert (.named "a" "second") ⟨"f", by decide⟩ 5)]
  have hindexed := indexed_withData [TestEntity.named "a" "first"]
  have hkeeps := (adapterRight_iff _ _ hindexed _).mp hright.1
  have hfirst : (withData [TestEntity.named "a" "first"]).findById "a" =
      some (TestEntity.named "a" "first") := by
    change ((∅ : Finmap fun _ : String => TestEntity).insert "a" _).lookup "a" = _
    exact Finmap.lookup_insert _
  have hname := (hkeeps.1 _ hfirst).eq_of (f := TestEntity.name) (fun _ _ => rfl) fun _ _ => rfl
  exact absurd hname (by decide)

end Backbone.Persistence
