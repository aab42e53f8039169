import Backbone.Core.BatchWrites

/-!
# One row, one payload

A batch tells its rows apart by the texts of their ids, and the database by the UUIDs it reads of them. A
UUID has many texts. Two of them in one batch of updates are both applied to the row; in a list of ids
they count for two where the statement touches one row, and the batch is rolled back. `SpelledOnce` is
the condition under which texts and UUIDs tell the same rows apart.

`UpdatesRight` is what a batch of updates with these ids is meant to do, of any entity, service and
payloads and in any table; `ListsRight` the same for a list of these ids. The hooks of an update may fill
in fields and are taken to leave the id alone.

Reference: `backbone-core/src/service.rs` (`dedup_ids`, `first_duplicate_id` and the batches) and
`backbone-orm/src/generic_repository.rs`.
-/

namespace Backbone.Core

open Workflow (Value)
open Orm (Row isDeleted fieldValue differingFields updateChanged)

variable {trashed : Bool} {ids : List String}

/-! ## What a batch is meant to do -/

/-- No two texts of the batch are spellings of one UUID. -/
def SpelledOnce (readId : String → Option Uuid) (ids : List String) : Prop :=
  ∀ a ∈ ids, ∀ b ∈ ids, readId a = readId b → a = b

/-- An entity serializes the id it was read with. -/
structure Identified {Val : Type} (E : SerdeEntity Val) (readId : String → Option Uuid) : Prop where
  column : "id" ∈ E.columns
  text : ∀ id key v, readId id = some key → E.fromColumn "id" (.str id) = .ok v →
    ∃ id', E.encode "id" v = some (.str id') ∧ readId id' = some key

/-- The lifecycle and the hooks of an update leave the id alone. -/
structure BatchService.KeepsId {Val U : Type} (S : BatchService Val U) (E : SerdeEntity Val) :
    Prop where
  beforeUpdate : ∀ entity entity', S.beforeUpdate entity = .ok entity' →
    E.idText entity' = E.idText entity
  hooksBeforeUpdate : ∀ before entity entity', S.hooksBeforeUpdate before entity = .ok entity' →
    E.idText entity' = E.idText entity

/-- Nothing refuses: rows are read, and the guard, the lifecycle, the hooks, the constraints and the
commit let everything through. -/
structure BatchService.Permissive {Val U : Type} (S : BatchService Val U) (E : SerdeEntity Val) :
    Prop where
  reads : ∀ row, ∃ entity, E.fetch row = .ok entity
  guard : ∀ ctx, (E.guard ctx).refuse = []
  beforeDelete : ∀ entity, S.beforeDelete entity = .ok ()
  afterDelete : ∀ id, S.afterDelete id = .ok ()
  beforeRestore : ∀ entity, S.beforeRestore entity = .ok ()
  beforeHardDelete : ∀ entity, S.beforeHardDelete entity = .ok ()
  hooksBefore : ∀ fate, S.hooksBefore fate = .ok ()
  hooksAfter : ∀ fate, S.hooksAfter fate = .ok ()
  tableRefuses : ∀ rows, S.tableRefuses rows = none
  commitRefused : S.commitRefused = false

section

variable {readId : String → Option Uuid} {Val U : Type}

/-- A batch of updates that is not refused applies at most one item to each row, and one that is leaves
the table as it was. -/
def OncePerRow {α : Type} (work : List (Uuid × Records readId) × α)
    (batch : Except BatchError (List (Entity Val)) × Records readId) (t : Records readId) : Prop :=
  (∀ saved, batch.1 = .ok saved → (work.1.map Prod.fst).Nodup) ∧
    ∀ err, batch.1 = .error err → batch.2 = t

/-- Every row the ids name is in the state the batch requires. -/
def AllIn (t : Records readId) (trashed : Bool) (ids : List String) : Prop :=
  ∀ id ∈ ids, ∃ key row, readId id = some key ∧ t.find key = some row ∧ isDeleted row = trashed

/-- A list of ids succeeds only where every row it names is in the required state, succeeds there if
nothing else refuses, and leaves the table as it was if it does not succeed. -/
structure AllOrNothing {α : Type} (batch : Except BatchError α × Records readId) (t : Records readId)
    (trashed : Bool) (ids : List String) (permissive : Prop) : Prop where
  required : ∀ a, batch.1 = .ok a → AllIn t trashed ids
  succeeds : permissive → AllIn t trashed ids → ∃ a, batch.1 = .ok a
  unchanged : ∀ err, batch.1 = .error err → batch.2 = t

end

/-- What batches of updates with these ids are meant to do. -/
def UpdatesRight (readId : String → Option Uuid) (ids : List String) : Prop :=
  ∀ (Val U : Type) (E : SerdeEntity Val) (S : BatchService Val U) (t : Records readId),
    Identified E readId → S.KeepsId E →
      (∀ items, items.map Prod.fst = ids →
        OncePerRow (E.batchWork S (E.fullChange S) t items) (E.bulkUpdate S t items) t) ∧
      ∀ items, items.map Prod.fst = ids →
        OncePerRow (E.batchWork S (E.patchChange S) t items) (E.bulkPartialUpdate S t items) t

/-- What lists of these ids are meant to do. -/
def ListsRight (readId : String → Option Uuid) (ids : List String) : Prop :=
  ∀ (Val U : Type) (E : SerdeEntity Val) (S : BatchService Val U) (t : Records readId),
    (∀ stamp, AllOrNothing (E.bulkSoftDelete S stamp t ids) t false ids (S.Permissive E)) ∧
      AllOrNothing (E.bulkRestore S t ids) t true ids (S.Permissive E) ∧
      AllOrNothing (E.bulkPermanentDelete S t ids) t true ids (S.Permissive E)

/-! ## Keys -/

section

variable {readId : String → Option Uuid} {t : Records readId}

namespace Records

theorem find_eq_some {key : Uuid} {row : Row} : t.find key = some row ↔ (key, row) ∈ t.rows := by
  unfold find
  rw [Option.map_eq_some_iff]
  constructor
  · rintro ⟨r, hr, rfl⟩
    have hkey : r.1 = key := by simpa using List.find?_some hr
    rw [← hkey]
    exact List.mem_of_find?_eq_some hr
  · intro hmem
    exact ⟨(key, row), Table.find?_eq_some_of_mem t.primaryKey hmem, rfl⟩

theorem change_eq_self {f : Uuid × Row → Row} (hid : ∀ r, f r "id" = r.2 "id")
    (h : ∀ r ∈ t.rows, f r = r.2) : t.change f hid = t := by
  have hrows : (t.change f hid).rows = t.rows := by
    refine (List.map_congr_left fun r hr => ?_).trans (List.map_id _)
    rw [h r hr, id]
  cases t
  simpa [change] using hrows

/-- The count of a statement is that of its list of keys exactly when each key is listed once and names a
row in the state the statement requires. -/
theorem length_named {keys : List Uuid} :
    (t.rows.filter (named keys trashed)).length = keys.length ↔
      keys.Nodup ∧ ∀ key ∈ keys, ∃ row, t.find key = some row ∧ isDeleted row = trashed := by
  have hcount := Table.length_filter_keys t.primaryKey keys fun r => isDeleted r.2 == trashed
  refine Iff.trans hcount (and_congr_right fun _ => forall₂_congr fun key _ => ?_)
  constructor
  · rintro ⟨r, hr, rfl, hstate⟩
    exact ⟨r.2, find_eq_some.mpr hr, by simpa using hstate⟩
  · rintro ⟨row, hfound, rfl⟩
    exact ⟨(key, row), find_eq_some.mp hfound, rfl, by simp⟩

end Records

theorem castId_eq_ok {id : String} {key : Uuid} : castId readId id = .ok key ↔ readId id = some key := by
  unfold castId
  cases readId id with
  | none => exact iff_of_false (fun h => by cases h) fun h => by cases h
  | some key' => rw [Except.ok.injEq, Option.some.injEq]

/-- Distinct texts that are spelled once name distinct keys. -/
theorem nodup_keys_iff {keys : List Uuid} (hnodup : ids.Nodup)
    (hkeys : List.Forall₂ (fun id key => readId id = some key) ids keys) :
    keys.Nodup ↔ SpelledOnce readId ids := by
  have hmap : keys.map some = ids.map readId := by
    induction hkeys with
    | nil => rfl
    | cons h _ ih => rw [List.map_cons, List.map_cons, h, ih hnodup.of_cons]
  rw [← List.nodup_map_iff (Option.some_injective Uuid), hmap]
  constructor
  · intro h a ha b hb heq
    exact List.inj_on_of_nodup_map h ha hb heq
  · intro h
    exact hnodup.map_on fun a ha b hb heq => h a ha b hb heq

theorem spelledOnce_dedupIds : SpelledOnce readId (dedupIds ids) ↔ SpelledOnce readId ids := by
  simp [SpelledOnce]

theorem allIn_dedupIds : AllIn t trashed (dedupIds ids) ↔ AllIn t trashed ids := by
  simp [AllIn]

end

/-! ## A batch of updates -/

section Updates

variable {readId : String → Option Uuid} {Val U : Type} {E : SerdeEntity Val} {S : BatchService Val U}
  {t : Records readId} {before after : Entity Val} {pairs : List (Entity Val × Entity Val)}
  {index : ℕ}
  {id : String} {α : Type} {change : α → Entity Val → Except ServiceError (Entity Val)}
  {items : List (String × α)}

theorem findRow_eq_ok {entity : Entity Val} :
    E.findRow t trashed id = .ok (some entity) ↔
      ∃ key row, readId id = some key ∧ t.find key = some row ∧ isDeleted row = trashed ∧
        E.fetch row = .ok entity := by
  unfold SerdeEntity.findRow
  simp only [bind_eq_ok, castId_eq_ok]
  constructor
  · rintro ⟨key, hkey, h⟩
    cases hfound : (t.find key).filter fun row => isDeleted row == trashed with
    | none =>
      rw [hfound] at h
      cases h
    | some row =>
      simp only [hfound, bind_eq_ok, pure_eq_ok, Option.some.injEq] at h
      obtain ⟨entity', hfetch, rfl⟩ := h
      obtain ⟨hrow, hstate⟩ := Option.filter_eq_some_iff.mp hfound
      exact ⟨key, row, hkey, hrow, by simpa using hstate, hfetch⟩
  · rintro ⟨key, row, hkey, hrow, rfl, hfetch⟩
    refine ⟨key, hkey, ?_⟩
    have hfound : (t.find key).filter (fun row' => isDeleted row' == isDeleted row) = some row :=
      Option.filter_eq_some_iff.mpr ⟨hrow, by simp⟩
    simp only [hfound, bind_eq_ok, pure_eq_ok, Option.some.injEq]
    exact ⟨entity, hfetch, rfl⟩

/-- An entity found by a text of its id serializes a text of the same UUID. -/
theorem Identified.idText_of_found (hE : Identified E readId)
    (h : E.findRow t trashed id = .ok (some before)) :
    ∃ key id', readId id = some key ∧ E.idText before = some id' ∧ readId id' = some key := by
  obtain ⟨key, row, hkey, hrow, -, hfetch⟩ := findRow_eq_ok.mp h
  obtain ⟨text, hcolumn, htext⟩ := t.idColumn _ (Records.find_eq_some.mp hrow)
  obtain ⟨v, hv, hbefore⟩ :=
    (entityOf_eq_ok (mapError_eq_ok.mp hfetch) "id").1 hE.column
  simp only at hcolumn htext
  rw [hcolumn] at hv
  obtain ⟨id', hencode, hid'⟩ := hE.text text key v htext hv
  refine ⟨key, id', hkey, ?_, hid'⟩
  unfold SerdeEntity.idText
  rw [SerdeEntity.fieldValue_serialize hE.column, hbefore, Option.bind_some, hencode]

theorem idText_fullChange {dto : U} (h : E.fullChange S dto before = .ok after) :
    E.idText after = E.idText before := by
  unfold SerdeEntity.fullChange at h
  obtain ⟨updated, -, h⟩ := bind_eq_ok.mp h
  obtain ⟨_, hprotected, h⟩ := bind_eq_ok.mp h
  obtain rfl := pure_eq_ok.mp h
  unfold SerdeEntity.idText
  rw [SerdeEntity.id_kept (mapError_eq_ok.mp hprotected)]

theorem idText_patchChange {fields : List (String × Value)}
    (h : E.patchChange S fields before = .ok after) : E.idText after = E.idText before := by
  unfold SerdeEntity.patchChange SerdeEntity.mergePatch at h
  obtain ⟨patched, -, h⟩ := bind_eq_ok.mp h
  simp only at h
  split at h
  · cases h
  · obtain ⟨_, hprotected, h⟩ := bind_eq_ok.mp h
    obtain rfl := pure_eq_ok.mp h
    unfold SerdeEntity.idText
    rw [SerdeEntity.id_kept (mapError_eq_ok.mp hprotected)]

theorem idText_readied (hS : S.KeepsId E) {change : Entity Val → Except ServiceError (Entity Val)}
    (hchange : ∀ entity entity', change entity = .ok entity' → E.idText entity' = E.idText entity)
    (h : E.readied S change index before = .ok after) :
    E.idText after = E.idText before := by
  unfold SerdeEntity.readied at h
  obtain ⟨changed, hchanged, h⟩ := bind_eq_ok.mp h
  obtain ⟨_, -, h⟩ := bind_eq_ok.mp h
  obtain ⟨updated, hupdated, h⟩ := bind_eq_ok.mp h
  obtain ⟨hooked, hhooked, h⟩ := bind_eq_ok.mp h
  obtain ⟨_, -, h⟩ := bind_eq_ok.mp h
  obtain rfl := pure_eq_ok.mp h
  rw [hS.hooksBeforeUpdate _ _ _ hhooked, hS.beforeUpdate _ _ hupdated, hchange _ _ hchanged]

/-- Each entity handed over has a text of the UUID its item was named by. -/
theorem handedOver_ids (hE : Identified E readId) (hS : S.KeepsId E)
    (hchange : ∀ payload entity entity', change payload entity = .ok entity' →
      E.idText entity' = E.idText entity)
    (h : E.handedOver S change t index items = .ok pairs) :
    List.Forall₂ (fun item pair => ∃ key id', readId item.1 = some key ∧
      E.idText pair.2 = some id' ∧ readId id' = some key) items pairs := by
  induction items generalizing index pairs with
  | nil =>
    obtain rfl := Except.ok.inj h
    exact .nil
  | cons item items ih =>
    unfold SerdeEntity.handedOver at h
    obtain ⟨pair, hpair, h⟩ := bind_eq_ok.mp h
    obtain ⟨rest, hrest, h⟩ := bind_eq_ok.mp h
    obtain rfl := pure_eq_ok.mp h
    refine .cons ?_ (ih hrest)
    unfold SerdeEntity.readiedItem at hpair
    obtain ⟨found, hfound, hpair⟩ := bind_eq_ok.mp hpair
    cases found with
    | none => cases hpair
    | some before =>
      obtain ⟨after, hafter, hpair⟩ := bind_eq_ok.mp hpair
      obtain rfl := pure_eq_ok.mp hpair
      obtain ⟨key, id', hkey, htext, hid'⟩ := hE.idText_of_found (mapError_eq_ok.mp hfound)
      refine ⟨key, id', hkey, ?_, hid'⟩
      rw [idText_readied hS (hchange item.2) (mapError_eq_ok.mp hafter), htext]

/-- The statement of a pair touches the row of the entity's id. -/
theorem updateOne_key {key : Uuid} {stored : Records readId} {saved : Entity Val}
    (h : E.updateOne S t before after = .ok (key, stored, saved)) :
    ∃ id', E.idText after = some id' ∧ readId id' = some key := by
  unfold SerdeEntity.updateOne at h
  obtain ⟨id', hid', h⟩ := bind_eq_ok.mp h
  obtain ⟨key', hkey', h⟩ := bind_eq_ok.mp h
  have htext : E.idText after = some id' := by
    unfold SerdeEntity.boundId at hid'
    cases htext : E.idText after with
    | none =>
      rw [htext] at hid'
      cases hid'
    | some text =>
      rw [htext] at hid'
      rw [Except.ok.inj hid']
  refine ⟨id', htext, ?_⟩
  simp only at h
  split at h
  · cases h
  · split at h
    · cases h
    · cases h
    · obtain ⟨_, -, h⟩ := bind_eq_ok.mp h
      obtain ⟨_, -, h⟩ := bind_eq_ok.mp h
      have hkey := congrArg Prod.fst (pure_eq_ok.mp h)
      simp only at hkey
      rw [← hkey]
      exact castId_eq_ok.mp hkey'

/-- The statements of a batch that went through touch the rows of the entities' ids, in their order. -/
theorem updateEach_keys {saved : List (Entity Val)}
    (h : (E.updateEach S t index pairs).2 = .ok saved) :
    List.Forall₂ (fun pair statement => ∃ id', E.idText pair.2 = some id' ∧
      readId id' = some statement.1) pairs (E.updateEach S t index pairs).1 := by
  induction pairs generalizing t index saved with
  | nil => exact .nil
  | cons pair pairs ih =>
    obtain ⟨before, after⟩ := pair
    unfold SerdeEntity.updateEach at h ⊢
    cases hone : E.updateOne S t before after with
    | error err =>
      rw [hone] at h
      cases h
    | ok done =>
      obtain ⟨key, stored, entity⟩ := done
      rw [hone] at h
      simp only at h ⊢
      refine .cons (updateOne_key hone) ?_
      cases hrest : (E.updateEach S stored (index + 1) pairs).2 with
      | error err =>
        rw [hrest] at h
        cases h
      | ok rest => exact ih hrest

/-- The statements touch the rows the items name, when both agree with the pairs in between. -/
theorem forall₂_keys {β : Type} {log : List (Uuid × β)}
    (hids : List.Forall₂ (fun item pair => ∃ key id', readId item.1 = some key ∧
      E.idText pair.2 = some id' ∧ readId id' = some key) items pairs)
    (hkeys : List.Forall₂ (fun pair statement => ∃ id', E.idText pair.2 = some id' ∧
      readId id' = some statement.1) pairs log) :
    List.Forall₂ (fun item statement => readId item.1 = some statement.1) items log := by
  induction hids generalizing log with
  | nil =>
    cases hkeys
    exact .nil
  | cons hitem _ ih =>
    obtain ⟨key, id', hkey, htext, hid'⟩ := hitem
    rcases List.forall₂_cons_left_iff.mp hkeys with ⟨statement, rest, hpair, hrest, rfl⟩
    obtain ⟨id'', htext', hid''⟩ := hpair
    obtain rfl : id' = id'' := Option.some.inj (htext.symm.trans htext')
    refine .cons ?_ (ih hrest)
    rw [hkey, ← hid', hid'']

/-- A batch of updates whose ids are spelled once applies at most one item to each row. -/
theorem oncePerRow_batchUpdate (hE : Identified E readId) (hS : S.KeepsId E)
    (hchange : ∀ payload entity entity', change payload entity = .ok entity' →
      E.idText entity' = E.idText entity)
    {what : String}
    (honce : (items.map Prod.fst).length ≤ maxBatchSize → (items.map Prod.fst).Nodup →
      SpelledOnce readId (items.map Prod.fst)) :
    OncePerRow (E.batchWork S change t items) (E.batchUpdate S what change t items) t := by
  have hchecked := @checkItems_eq_ok (items.map Prod.fst) what
  unfold OncePerRow SerdeEntity.batchUpdate
  cases hcheck : checkItems what (items.map Prod.fst) with
  | error err =>
    refine ⟨fun saved h => ?_, fun _ _ => rfl⟩
    cases h
  | ok _ =>
    obtain ⟨hsize, hnodup⟩ := hchecked.mp hcheck
    refine ⟨fun saved hsaved => ?_, fun err herr => Orm.inWriteTxResult_error herr⟩
    obtain ⟨hwork, -⟩ := Orm.inWriteTxResult_ok hsaved
    unfold SerdeEntity.batchWork at hwork ⊢
    cases hpairs : E.handedOver S change t 0 items with
    | error err =>
      rw [hpairs] at hwork
      cases hwork
    | ok pairs =>
      rw [hpairs] at hwork
      obtain ⟨written, hwritten, -⟩ := bind_eq_ok.mp (mapError_eq_ok.mp hwork)
      refine (nodup_keys_iff hnodup ?_).mpr (honce hsize hnodup)
      rw [List.forall₂_map_left_iff, List.forall₂_map_right_iff]
      exact forall₂_keys (handedOver_ids hE hS hchange hpairs) (updateEach_keys hwritten)

end Updates

/-! ## Lists of ids -/

section Lists

variable {readId : String → Option Uuid} {Val U : Type} {E : SerdeEntity Val} {S : BatchService Val U}
  {t : Records readId}
  {what state : String} {β α γ : Type} {asked : List String → Except BatchError α}
  {statement : List String → Except ServiceError (β × Records readId)}
  {told : α → β → Except ServiceError γ}

theorem counted_eq_ok {affected requested : ℕ} :
    SerdeEntity.counted what state affected requested = .ok () ↔ affected = requested := by
  unfold SerdeEntity.counted
  split
  · exact iff_of_true rfl ‹_›
  · exact iff_of_false (fun h => by cases h) ‹_›

theorem constrained_eq_ok : S.constrained t = .ok () ↔ S.tableRefuses t.rows = none := by
  unfold BatchService.constrained
  cases S.tableRefuses t.rows with
  | none => exact iff_of_true rfl rfl
  | some message => exact iff_of_false (fun h => by cases h) fun h => by cases h

/-- The count of a statement is the number of its ids exactly when these are spelled once and name rows
in the state it requires. -/
theorem length_named_iff {keys : List Uuid} (hnodup : ids.Nodup)
    (hkeys : ids.mapM (castId readId) = .ok keys) :
    (t.rows.filter (Records.named keys trashed)).length = ids.length ↔
      SpelledOnce readId ids ∧ AllIn t trashed ids := by
  have hread : List.Forall₂ (fun id key => readId id = some key) ids keys :=
    (mapM_eq_ok.mp hkeys).imp fun _ _ h => castId_eq_ok.mp h
  rw [hread.length_eq, Records.length_named, nodup_keys_iff hnodup hread]
  refine and_congr_right' ?_
  clear hnodup hkeys
  induction hread with
  | nil => simp [AllIn]
  | cons hkey _ ih =>
    unfold AllIn at ih ⊢
    rw [List.forall_mem_cons, List.forall_mem_cons, ih]
    refine and_congr_left fun _ => ?_
    constructor
    · rintro ⟨row, hrow⟩
      exact ⟨_, row, hkey, hrow⟩
    · rintro ⟨key, row, hkey', hrow⟩
      obtain rfl := Option.some.inj (hkey.symm.trans hkey')
      exact ⟨row, hrow⟩

/-- What the statement of a list is held to: it goes through only for ids that are spelled once and name
rows in the required state, and if the constraints refuse nothing it goes through for these. -/
structure HeldToCount {β : Type} (S : BatchService Val U) (E : SerdeEntity Val) (t : Records readId)
    (trashed : Bool) (statement : List String → Except ServiceError (β × Records readId)) : Prop where
  required : ∀ ids b, ids.Nodup → statement ids = .ok b → SpelledOnce readId ids ∧ AllIn t trashed ids
  succeeds : ∀ ids, ids.Nodup → S.Permissive E → SpelledOnce readId ids → AllIn t trashed ids →
    ∃ b, statement ids = .ok b

theorem spelledOnce_nil : SpelledOnce readId [] := fun _ h => absurd h List.not_mem_nil

theorem allIn_nil : AllIn t trashed [] := fun _ h => absurd h List.not_mem_nil

theorem AllIn.exists_keys (h : AllIn t trashed ids) :
    ∃ keys, ids.mapM (castId readId) = .ok keys := by
  refine exists_mapM_eq_ok.mpr fun id hid => ?_
  obtain ⟨key, -, hkey, -⟩ := h id hid
  exact ⟨key, castId_eq_ok.mpr hkey⟩

/-- A statement that reads an answer of the rows it names is held to their count. -/
theorem heldToCount_of_counted {nothing : β}
    {stored : List Uuid → Records readId} (read : List Uuid → Except ServiceError β) (count : β → ℕ)
    (hreads : S.Permissive E → ∀ keys, ∃ b, read keys = .ok b)
    (hcounts : ∀ keys b, read keys = .ok b →
      count b = (t.rows.filter (Records.named keys trashed)).length) :
    HeldToCount S E t trashed fun ids =>
      if ids = [] then .ok (nothing, t)
      else do
        let keys ← ids.mapM (castId readId)
        S.constrained (stored keys)
        let b ← read keys
        SerdeEntity.counted what state (count b) ids.length
        return (b, stored keys) where
  required := by
    intro ids b hnodup h
    by_cases hnil : ids = []
    · subst hnil
      exact ⟨spelledOnce_nil, allIn_nil⟩
    · rw [if_neg hnil] at h
      obtain ⟨keys, hkeys, h⟩ := bind_eq_ok.mp h
      obtain ⟨_, -, h⟩ := bind_eq_ok.mp h
      obtain ⟨b, hb, h⟩ := bind_eq_ok.mp h
      obtain ⟨_, hcount, -⟩ := bind_eq_ok.mp h
      rw [counted_eq_ok, hcounts keys b hb] at hcount
      exact (length_named_iff hnodup hkeys).mp hcount
  succeeds := by
    intro ids hnodup hS honce hin
    by_cases hnil : ids = []
    · exact ⟨(nothing, t), if_pos hnil⟩
    · obtain ⟨keys, hkeys⟩ := hin.exists_keys
      obtain ⟨b, hb⟩ := hreads hS keys
      have hcount : count b = ids.length := by
        rw [hcounts keys b hb, length_named_iff hnodup hkeys]
        exact ⟨honce, hin⟩
      refine ⟨(b, stored keys), ?_⟩
      rw [if_neg hnil]
      exact bind_eq_ok.mpr ⟨keys, hkeys, bind_eq_ok.mpr
        ⟨(), constrained_eq_ok.mpr (hS.tableRefuses _), bind_eq_ok.mpr ⟨b, hb,
          bind_eq_ok.mpr ⟨(), counted_eq_ok.mpr hcount, rfl⟩⟩⟩⟩

theorem softDeleteRows_held (stamp : Value) :
    HeldToCount S E t false (SerdeEntity.softDeleteRows S stamp t) :=
  heldToCount_of_counted (fun keys => .ok (t.softDelete stamp keys).1) id
    (fun _ _ => ⟨_, rfl⟩) fun _ _ h => (Except.ok.inj h).symm

theorem deleteRows_held : HeldToCount S E t true (SerdeEntity.deleteRows S t) :=
  heldToCount_of_counted (fun keys => .ok (t.delete keys).1) id
    (fun _ _ => ⟨_, rfl⟩) fun _ _ h => (Except.ok.inj h).symm

theorem restoreRows_held : HeldToCount S E t true (E.restoreRows S t) := by
  refine heldToCount_of_counted _ List.length (fun hS keys => ?_) fun keys entities h => ?_
  · exact exists_mapM_eq_ok.mpr fun row _ => hS.reads row
  · rw [← (mapM_eq_ok.mp h).length_eq, Records.restore, List.length_map]

/-- A list of ids that went through is not too large, spells each row once and names rows in the required
state. -/
theorem of_batchList_ok (hheld : HeldToCount S E t trashed statement) {c : γ}
    (h : (SerdeEntity.batchList S (fun ids => SerdeEntity.listWork (asked ids) (statement ids) told) t
      ids).1 = .ok c) :
    ids.length ≤ maxBatchSize ∧ SpelledOnce readId ids ∧ AllIn t trashed ids := by
  unfold SerdeEntity.batchList at h
  cases hsize : checkBatchSize ids.length with
  | error err =>
    rw [hsize] at h
    cases h
  | ok _ =>
    rw [hsize] at h
    obtain ⟨hwork, -⟩ := Orm.inWriteTxResult_ok h
    simp only [SerdeEntity.listWork] at hwork
    cases hasked : asked (dedupIds ids) with
    | error err =>
      rw [hasked] at hwork
      cases hwork
    | ok a =>
      rw [hasked] at hwork
      cases hstatement : statement (dedupIds ids) with
      | error err =>
        rw [hstatement] at hwork
        cases hwork
      | ok b =>
        obtain ⟨honce, hin⟩ := hheld.required _ b (nodup_dedupIds ids) hstatement
        exact ⟨checkBatchSize_eq_ok.mp hsize, spelledOnce_dedupIds.mp honce, allIn_dedupIds.mp hin⟩

/-- A list of ids that is not too large and spells each row once is all or nothing. -/
theorem allOrNothing_batchList (hheld : HeldToCount S E t trashed statement)
    (hasked : S.Permissive E → ∀ ids, AllIn t trashed ids → ∃ a, asked ids = .ok a)
    (htold : S.Permissive E → ∀ a b, ∃ c, told a b = .ok c) (hsize : ids.length ≤ maxBatchSize)
    (honce : SpelledOnce readId ids) :
    AllOrNothing (SerdeEntity.batchList S
      (fun ids => SerdeEntity.listWork (asked ids) (statement ids) told) t ids) t trashed ids
      (S.Permissive E) where
  required := fun c hc => (of_batchList_ok hheld hc).2.2
  succeeds := by
    intro hS hin
    have hin' := allIn_dedupIds.mpr hin
    obtain ⟨a, ha⟩ := hasked hS (dedupIds ids) hin'
    obtain ⟨⟨b, stored⟩, hb⟩ :=
      hheld.succeeds _ (nodup_dedupIds ids) hS (spelledOnce_dedupIds.mpr honce) hin'
    obtain ⟨c, hc⟩ := htold hS a b
    refine ⟨c, ?_⟩
    unfold SerdeEntity.batchList
    rw [checkBatchSize_eq_ok.mpr hsize]
    refine Orm.inWriteTxResult_of_ok ?_ hS.commitRefused
    simp only [SerdeEntity.listWork, ha, hb, hc]
    rfl
  unchanged := by
    intro err herr
    unfold SerdeEntity.batchList at herr ⊢
    rw [checkBatchSize_eq_ok.mpr hsize] at herr ⊢
    exact Orm.inWriteTxResult_error herr

section

variable (hS : S.Permissive E)
include hS

theorem consult_eq_ok (ctx : WriteCtx) : E.consult ctx = .ok () := by
  unfold EntityType.consult
  simp only [hS.guard ctx]
  rfl

/-- A row of the required state is found under any text of its id. -/
theorem AllIn.found (h : AllIn t trashed ids) {id : String} (hid : id ∈ ids) :
    ∃ entity, E.findRow t trashed id = .ok (some entity) := by
  obtain ⟨key, row, hkey, hrow, hstate⟩ := h id hid
  obtain ⟨entity, hentity⟩ := hS.reads row
  exact ⟨entity, findRow_eq_ok.mpr ⟨key, row, hkey, hrow, hstate, hentity⟩⟩

theorem exists_askedDelete (h : AllIn t false ids) :
    ∃ entities, E.askedDelete S t ids = .ok entities := by
  have hadmits : ∀ entity, E.admitsDelete S entity = .ok () := fun entity => by
    unfold SerdeEntity.admitsDelete
    rw [consult_eq_ok hS, hS.beforeDelete]
    exact hS.hooksBefore _
  obtain ⟨entities, hentities⟩ : ∃ entities, E.liveRows t ids = .ok entities := by
    refine exists_mapM_eq_ok.mpr fun id hid => ?_
    obtain ⟨entity, hentity⟩ := h.found hS hid
    exact ⟨entity, bind_eq_ok.mpr ⟨some entity, mapError_eq_ok.mpr hentity, rfl⟩⟩
  refine ⟨entities, bind_eq_ok.mpr ⟨entities, hentities, bind_eq_ok.mpr ⟨(), ?_, rfl⟩⟩⟩
  exact mapError_eq_ok.mpr (forM_eq_ok fun entity _ => hadmits entity)

theorem exists_askedTrash {admits : Entity Val → Except ServiceError Unit}
    (hadmits : ∀ trashed, admits trashed = .ok ()) (h : AllIn t true ids) :
    ∃ seen, E.askedTrash admits t ids = .ok seen := by
  unfold SerdeEntity.askedTrash
  simp only [mapError_eq_ok]
  refine exists_filterMapM_eq_ok fun id hid => ?_
  obtain ⟨trashed, htrashed⟩ := h.found hS hid
  exact ⟨some trashed, bind_eq_ok.mpr ⟨some trashed, htrashed,
    bind_eq_ok.mpr ⟨(), hadmits trashed, rfl⟩⟩⟩

theorem admitsRestore_eq_ok (trashed : Entity Val) : E.admitsRestore S trashed = .ok () := by
  unfold SerdeEntity.admitsRestore
  rw [consult_eq_ok hS, hS.beforeRestore]
  exact hS.hooksBefore _

theorem admitsHardDelete_eq_ok (trashed : Entity Val) : E.admitsHardDelete S trashed = .ok () := by
  unfold SerdeEntity.admitsHardDelete
  rw [consult_eq_ok hS, hS.beforeHardDelete]
  exact hS.hooksBefore _

end

/-- Lists of ids that are not too large and spelled once do what they are meant to. -/
theorem listsRight_of_spelledOnce (hsize : ids.length ≤ maxBatchSize)
    (honce : SpelledOnce readId ids) : ListsRight readId ids := by
  intro Val U E S t
  refine ⟨fun stamp => ?_, ?_, ?_⟩
  · refine allOrNothing_batchList (softDeleteRows_held stamp)
      (fun hS _ hin => exists_askedDelete hS hin) (fun hS entities affected => ?_) hsize honce
    refine ⟨affected, bind_eq_ok.mpr ⟨(), forM_eq_ok fun deleted _ => ?_, rfl⟩⟩
    exact bind_eq_ok.mpr ⟨(), hS.afterDelete _, hS.hooksAfter _⟩
  · refine allOrNothing_batchList restoreRows_held
      (fun hS _ hin => exists_askedTrash hS (admitsRestore_eq_ok hS) hin)
      (fun hS _ restored => ?_) hsize honce
    exact ⟨restored, bind_eq_ok.mpr ⟨(), forM_eq_ok fun entity _ => hS.hooksAfter _, rfl⟩⟩
  · refine allOrNothing_batchList deleteRows_held
      (fun hS _ hin => exists_askedTrash hS (admitsHardDelete_eq_ok hS) hin)
      (fun hS seen affected => ?_) hsize honce
    exact ⟨affected, bind_eq_ok.mpr ⟨(), forM_eq_ok fun trashed _ => hS.hooksAfter _, rfl⟩⟩

end Lists

/-! ## Rows of an id alone -/

/-- An entity of an id alone, with what its row has. -/
def keyEntity : SerdeEntity Value where
  columns := ["id"]
  writeProtectedFields := []
  stateFields := []
  guard _ := ⟨[], []⟩
  populate _ v := v
  id_not_state := List.not_mem_nil
  encode _ v := some v
  decode _ v := .ok (v.getD .null)
  fromColumn _ v := .ok v
  references := []

/-- A service that changes nothing and refuses nothing. -/
def keyService : BatchService Value Unit where
  applyUpdate entity _ := .ok entity

/-- A live row of an id alone. -/
def keyRow (id : String) : Row := fun c => if c = "id" then .str id else .null

section Alone

variable {readId : String → Option Uuid} {t : Records readId}
  {index : ℕ} {items : List (String × Unit)} {entities : List (Entity Value)}

theorem keyEntity_identified : Identified keyEntity readId where
  column := List.mem_singleton_self _
  text := by
    intro id key v hkey hv
    obtain rfl := Except.ok.inj hv
    exact ⟨id, rfl, hkey⟩

theorem keyService_keepsId : keyService.KeepsId keyEntity where
  beforeUpdate := by
    intro entity entity' h
    rw [Except.ok.inj h]
  hooksBeforeUpdate := by
    intro before entity entity' h
    rw [Except.ok.inj h]

theorem keyService_permissive : keyService.Permissive keyEntity where
  reads _ := ⟨_, rfl⟩
  guard _ := rfl
  beforeDelete _ := rfl
  afterDelete _ := rfl
  beforeRestore _ := rfl
  beforeHardDelete _ := rfl
  hooksBefore _ := rfl
  hooksAfter _ := rfl
  tableRefuses _ := rfl
  commitRefused := rfl

/-- A table of live rows in which every accepted id is found. -/
theorem exists_liveTable (haccepted : ∀ id ∈ ids, (readId id).isSome) :
    ∃ t : Records readId, AllIn t false ids := by
  obtain ⟨t, hlive, hthere⟩ : ∃ t : Records readId, (∀ r ∈ t.rows, isDeleted r.2 = false) ∧
      ∀ id ∈ ids, ∃ r ∈ t.rows, readId id = some r.1 := by
    induction ids with
    | nil =>
      refine ⟨⟨[], List.nodup_nil, fun _ h => absurd h List.not_mem_nil⟩, ?_, ?_⟩
      · exact fun _ h => absurd h List.not_mem_nil
      · exact fun _ h => absurd h List.not_mem_nil
    | cons id ids ih =>
      obtain ⟨t, hlive, hthere⟩ := ih fun other h => haccepted other (List.mem_cons_of_mem _ h)
      obtain ⟨key, hkey⟩ := Option.isSome_iff_exists.mp (haccepted id List.mem_cons_self)
      by_cases hin : key ∈ t.rows.map (·.1)
      · obtain ⟨r, hr, rfl⟩ := List.mem_map.mp hin
        exact ⟨t, hlive, List.forall_mem_cons.mpr ⟨⟨r, hr, hkey⟩, hthere⟩⟩
      · refine ⟨⟨(key, keyRow id) :: t.rows, List.nodup_cons.mpr ⟨hin, t.primaryKey⟩,
          List.forall_mem_cons.mpr ⟨⟨id, rfl, hkey⟩, t.idColumn⟩⟩,
          List.forall_mem_cons.mpr ⟨rfl, hlive⟩, List.forall_mem_cons.mpr ⟨?_, ?_⟩⟩
        · exact ⟨(key, keyRow id), List.mem_cons_self, hkey⟩
        · intro other hother
          obtain ⟨r, hr, hread⟩ := hthere other hother
          exact ⟨r, List.mem_cons_of_mem _ hr, hread⟩
  refine ⟨t, fun id hid => ?_⟩
  obtain ⟨r, hr, hkey⟩ := hthere id hid
  exact ⟨r.1, r.2, hkey, Records.find_eq_some.mpr hr, hlive r hr⟩

theorem refuseProtectedChanges_self (E : EntityType) (transition : Option String) (v : Value) :
    E.refuseProtectedChanges transition v v = .ok () := by
  simp [EntityType.refuseProtectedChanges]

theorem readied_key (index : ℕ) (entity : Entity Value) :
    keyEntity.readied keyService (keyEntity.fullChange keyService ()) index entity = .ok entity := by
  have hchange : keyEntity.fullChange keyService () entity = .ok entity :=
    bind_eq_ok.mpr ⟨entity, rfl, bind_eq_ok.mpr
      ⟨(), mapError_eq_ok.mpr (refuseProtectedChanges_self _ _ _), rfl⟩⟩
  exact bind_eq_ok.mpr ⟨entity, hchange, rfl⟩

/-- The entities found are handed over as they are. -/
theorem handedOver_key
    (hfound : List.Forall₂ (fun item entity => keyEntity.findRow t false item.1 = .ok (some entity))
      items entities) :
    keyEntity.handedOver keyService (keyEntity.fullChange keyService) t index items =
      .ok (entities.map fun entity => (entity, entity)) := by
  induction hfound generalizing index with
  | nil => rfl
  | @cons item entity items entities hentity _ ih =>
    have hitem : keyEntity.readiedItem keyService t (keyEntity.fullChange keyService item.2) index
        item.1 = .ok (entity, entity) :=
      bind_eq_ok.mpr ⟨some entity, mapError_eq_ok.mpr hentity, bind_eq_ok.mpr
        ⟨entity, mapError_eq_ok.mpr (readied_key index entity), rfl⟩⟩
    exact bind_eq_ok.mpr ⟨(entity, entity), hitem, bind_eq_ok.mpr ⟨_, ih, rfl⟩⟩

theorem differingFields_key (before after : Entity Value) :
    differingFields (keyEntity.serialize before) (keyEntity.serialize after) = [] := by
  refine List.eq_nil_iff_forall_not_mem.mpr fun c hc => ?_
  obtain ⟨hafter, hne⟩ := Orm.mem_differingFields hc
  obtain ⟨f, hf, rfl⟩ := List.mem_map.mp hafter
  exact hne (List.mem_singleton.mp (SerdeEntity.mem_serialize.mp hf).1)

/-- A statement that changes nothing touches the row of its item, and leaves the table as it is. -/
theorem updateOne_key_self {id : String} {entity : Entity Value}
    (hfound : keyEntity.findRow t false id = .ok (some entity)) :
    ∃ key, readId id = some key ∧ keyEntity.updateOne keyService t entity entity =
      .ok (key, t, entity) := by
  obtain ⟨key, id', hkey, htext, hid'⟩ := keyEntity_identified.idText_of_found hfound
  obtain ⟨key', row, hkey', hrow, hlive, hfetch⟩ := findRow_eq_ok.mp hfound
  obtain rfl := Option.some.inj (hkey.symm.trans hkey')
  refine ⟨key, hkey, ?_⟩
  have hchanged : updateChanged keyEntity.populate (.obj (keyEntity.serialize entity))
      (.obj (keyEntity.serialize entity)) row = .ok (row, some row) := by
    rw [Orm.updateChanged_eq, hlive, differingFields_key]
    rfl
  have hafter : keyEntity.rowAfter entity entity row = row := by
    unfold SerdeEntity.rowAfter
    rw [hchanged]
  have hrows : ∀ r ∈ t.rows, (if r.1 == key then keyEntity.rowAfter entity entity r.2 else r.2) =
      r.2 := by
    intro r hr
    by_cases heq : r.1 = key
    · have hsame : r.2 = row :=
        Option.some.inj ((Records.find_eq_some.mpr hr).symm.trans (heq ▸ hrow))
      rw [heq, beq_self_eq_true, if_pos rfl, hsame, hafter]
    · rw [if_neg (by simpa using heq)]
  unfold SerdeEntity.updateOne
  refine bind_eq_ok.mpr ⟨id', by simp [SerdeEntity.boundId, htext], bind_eq_ok.mpr
    ⟨key, castId_eq_ok.mpr hid', ?_⟩⟩
  simp only [hrow, hchanged]
  refine bind_eq_ok.mpr ⟨(), rfl, bind_eq_ok.mpr ⟨entity, hfetch, ?_⟩⟩
  rw [Records.change_eq_self _ hrows]
  rfl

/-- Such statements touch the rows of their items, in their order. -/
theorem updateEach_key
    (hfound : List.Forall₂ (fun item entity => keyEntity.findRow t false item.1 = .ok (some entity))
      items entities) :
    ∃ log, keyEntity.updateEach keyService t index (entities.map fun entity => (entity, entity)) =
        (log, .ok entities) ∧
      List.Forall₂ (fun item statement => readId item.1 = some statement.1) items log := by
  induction hfound generalizing index with
  | nil => exact ⟨[], rfl, .nil⟩
  | @cons item entity items entities hentity _ ih =>
    obtain ⟨key, hkey, hone⟩ := updateOne_key_self hentity
    obtain ⟨log, hlog, hkeys⟩ := @ih (index + 1)
    refine ⟨(key, t) :: log, ?_, .cons hkey hkeys⟩
    rw [List.map_cons, SerdeEntity.updateEach, hone]
    simp only [hlog]
    rfl

theorem afterBulkUpdates_key (pairs : List (Entity Value × Entity Value)) :
    keyService.afterBulkUpdates pairs = .ok (pairs.map Prod.snd) := by
  induction pairs with
  | nil => rfl
  | cons pair pairs ih => exact bind_eq_ok.mpr ⟨(), rfl, bind_eq_ok.mpr
      ⟨pair.2, rfl, bind_eq_ok.mpr ⟨_, ih, rfl⟩⟩⟩

/-- A batch that changes nothing is not refused, and has a statement for each item. -/
theorem bulkUpdate_key
    (hfound : List.Forall₂ (fun item entity => keyEntity.findRow t false item.1 = .ok (some entity))
      items entities)
    (hsize : (items.map Prod.fst).length ≤ maxBatchSize) (hnodup : (items.map Prod.fst).Nodup) :
    (∃ saved, (keyEntity.bulkUpdate keyService t items).1 = .ok saved) ∧
      List.Forall₂ (fun item statement => readId item.1 = some statement.1) items
        (keyEntity.batchWork keyService (keyEntity.fullChange keyService) t items).1 := by
  obtain ⟨log, hlog, hkeys⟩ := @updateEach_key readId t 0 items entities hfound
  have hwork : ∃ saved, keyEntity.batchWork keyService (keyEntity.fullChange keyService) t items =
      (log, .ok saved) := by
    unfold SerdeEntity.batchWork
    rw [handedOver_key hfound]
    simp only [hlog]
    exact ⟨_, Prod.ext rfl (mapError_eq_ok.mpr (bind_eq_ok.mpr ⟨_, rfl, afterBulkUpdates_key _⟩))⟩
  obtain ⟨saved, hwork⟩ := hwork
  refine ⟨⟨saved, ?_⟩, by rwa [hwork]⟩
  unfold SerdeEntity.bulkUpdate SerdeEntity.batchUpdate
  rw [checkItems_eq_ok.mpr ⟨hsize, hnodup⟩]
  simp only [hwork]
  exact Orm.inWriteTxResult_of_ok rfl rfl

/-- Updates that are right spell each row once, unless they are refused. -/
theorem spelledOnce_of_updatesRight (haccepted : ∀ id ∈ ids, (readId id).isSome)
    (hsize : ids.length ≤ maxBatchSize) (hnodup : ids.Nodup) (h : UpdatesRight readId ids) :
    SpelledOnce readId ids := by
  obtain ⟨t, hin⟩ := exists_liveTable haccepted
  choose! found hfound using fun id (hid : id ∈ ids) => hin.found keyService_permissive hid
  have hids : (ids.map fun id => (id, ())).map Prod.fst = ids := by
    rw [List.map_map]
    exact List.map_id ids
  have hrows : List.Forall₂
      (fun (item : String × Unit) entity => keyEntity.findRow t false item.1 = .ok (some entity))
      (ids.map fun id => (id, ())) (ids.map found) := by
    rw [List.forall₂_map_left_iff, List.forall₂_map_right_iff, List.forall₂_same]
    exact hfound
  obtain ⟨⟨saved, hsaved⟩, hkeys⟩ :=
    bulkUpdate_key hrows (hids.symm ▸ hsize) (hids.symm ▸ hnodup)
  have honce := ((h Value Unit keyEntity keyService t keyEntity_identified keyService_keepsId).1
    _ hids).1 saved hsaved
  refine (nodup_keys_iff hnodup ?_).mp honce
  rw [List.forall₂_map_left_iff] at hkeys
  rw [List.forall₂_map_right_iff]
  exact hkeys

/-- Lists of ids that are right are not too large and spell each row once. -/
theorem spelledOnce_of_listsRight (haccepted : ∀ id ∈ ids, (readId id).isSome)
    (h : ListsRight readId ids) : ids.length ≤ maxBatchSize ∧ SpelledOnce readId ids := by
  obtain ⟨t, hin⟩ := exists_liveTable haccepted
  obtain ⟨affected, haffected⟩ := ((h Value Unit keyEntity keyService t).1 .null).succeeds
    keyService_permissive hin
  obtain ⟨hsize, honce, -⟩ := of_batchList_ok
    (softDeleteRows_held (E := keyEntity) .null) haffected
  exact ⟨hsize, honce⟩

end Alone

/-! ## When batches do what they are meant to -/

/-- Updates are right exactly where no two texts of a batch that is not refused are spellings of one
UUID, and lists exactly where they are not too large and no two of their texts are. -/
theorem batches_right_iff {readId : String → Option Uuid} {ids : List String}
    (haccepted : ∀ id ∈ ids, (readId id).isSome) :
    (UpdatesRight readId ids ↔
        (ids.length ≤ maxBatchSize → ids.Nodup → SpelledOnce readId ids)) ∧
      (ListsRight readId ids ↔ ids.length ≤ maxBatchSize ∧ SpelledOnce readId ids) := by
  refine ⟨⟨fun h hsize hnodup => spelledOnce_of_updatesRight haccepted hsize hnodup h, fun honce => ?_⟩,
    ⟨spelledOnce_of_listsRight haccepted, fun h => listsRight_of_spelledOnce h.1 h.2⟩⟩
  intro Val U E S t hE hS
  refine ⟨fun items hids => ?_, fun items hids => ?_⟩
  · subst hids
    exact oncePerRow_batchUpdate hE hS (fun _ _ _ h => idText_fullChange h) honce
  · subst hids
    exact oncePerRow_batchUpdate hE hS (fun _ _ _ h => idText_patchChange h) honce

/-- A UUID in lower case. -/
def lowerId : String := "5f0c54de-7b2e-4a51-9a0d-3a6f1e2b7c90"

/-- The same UUID in upper case. -/
def upperId : String := "5F0C54DE-7B2E-4A51-9A0D-3A6F1E2B7C90"

/-- Another UUID. -/
def otherId : String := "5f0c54de-7b2e-4a51-9a0d-3a6f1e2b7c91"

/-- What is read of the three. -/
def readSpelling (id : String) : Option Uuid :=
  if id = lowerId ∨ id = upperId then some 0x5f0c54de7b2e4a519a0d3a6f1e2b7c90
  else if id = otherId then some 0x5f0c54de7b2e4a519a0d3a6f1e2b7c91
  else none

theorem batches_right_of_two_rows :
    UpdatesRight readSpelling [lowerId, otherId] ∧ ListsRight readSpelling [lowerId, otherId] := by
  have hright := @batches_right_iff readSpelling [lowerId, otherId] (by decide)
  have honce : SpelledOnce readSpelling [lowerId, otherId] := by
    unfold SpelledOnce
    decide
  exact ⟨hright.1.mpr fun _ _ => honce, hright.2.mpr ⟨by decide, honce⟩⟩

/-- Two spellings of one row are both applied to it, and cannot be deleted in one list. -/
theorem two_spellings_of_one_row :
    (∀ id ∈ [lowerId, upperId], (readSpelling id).isSome) ∧
      ¬ UpdatesRight readSpelling [lowerId, upperId] ∧
      ¬ ListsRight readSpelling [lowerId, upperId] := by
  have haccepted : ∀ id ∈ [lowerId, upperId], (readSpelling id).isSome := by decide
  have htwice : ¬ SpelledOnce readSpelling [lowerId, upperId] := by
    unfold SpelledOnce
    decide
  refine ⟨haccepted, fun h => htwice ?_, fun h => htwice (spelledOnce_of_listsRight haccepted h).2⟩
  exact spelledOnce_of_updatesRight haccepted (by decide) (by decide) h

end Backbone.Core
