import Backbone.Core.CrudRoutes

/-!
# What a response shows of a row

Every field a record carries is traced to where it comes from: it is the row's own and one the caller
may see, or it is a permission-gated field withheld as `null`, or it is a relation the request
expanded. `respond_discreet` says so of every generic route at once, whatever the query asks for.

A related row is traced the same way to the fields its relation and its table's registered entity keep
back. It is not run through the target's private fields: `expanded_private_field` shows one.
-/

namespace Backbone.Core

open Text (asciiTables)
open Workflow (Value)

/-! ## Where a field comes from -/

/-- An object carries a value under a key. -/
def Carries (v : Value) (key : String) (x : Value) : Prop :=
  ∃ fields, v = .obj fields ∧ (key, x) ∈ fields

/-- A key and the value under it, anywhere inside a value. -/
inductive Within (key : String) (x : Value) : Value → Prop
  | field {fields : List (String × Value)} (h : (key, x) ∈ fields) : Within key x (.obj fields)
  | inField {fields : List (String × Value)} {name : String} {inner : Value}
      (h : (name, inner) ∈ fields) (hx : Within key x inner) : Within key x (.obj fields)
  | inItem {items : List Value} {item : Value} (h : item ∈ items) (hx : Within key x item) :
      Within key x (.arr items)

/-- A platform caller, or the company that owns the row. -/
def MaySeePrivate (env : Env) (E : EntityMeta) (scope : Option AccessScope) (row : Value) : Prop :=
  scope = some .platform ∨
    ∃ id field text, scope = some (.company id) ∧ E.ownerField = some field ∧
      row.get? field = some (.str text) ∧ env.parseUuid text = some id

/-- A row's own field, which the caller may see. -/
structure Own (env : Env) (E : EntityMeta) (scope : Option AccessScope) (caller : Caller)
    (row : Value) (key : String) (x : Value) : Prop where
  value : Carries row key x
  notSecret : key ∉ E.secretFields
  visible : key ∈ E.privateFields → MaySeePrivate env E scope row
  held : ∀ permission, (key, permission) ∈ E.fieldPermissions → caller.held permission

/-- A gated field the caller does not hold, as `null`. -/
def Withheld (gated : List (String × String)) (caller : Caller) (key : String) (x : Value) : Prop :=
  x = .null ∧ ∃ permission, (key, permission) ∈ gated ∧ caller.held permission = false

/-- A field of a related row: none of the secrets its relation declares or its table registered, and
no gated field of its table but as `null`. -/
inductive RelatedShows (env : Env) (E : EntityMeta) (relation table : String) (caller : Caller)
    (obj : Value) (key : String) (x : Value) : Prop
  | own (column : String) (hkey : key = snakeToCamel env.toUppercase column)
      (hvalue : Carries obj column x) (hrelation : key ∉ E.relationSecretFields relation)
      (htable : key ∉ env.registry.secretFieldsOf table)
      (hheld : ∀ permission, (key, permission) ∈ env.registry.fieldPermissionsOf table →
        caller.held permission)
  | withheld (h : Withheld (env.registry.fieldPermissionsOf table) caller key x)

/-- A relation's value: nothing, or one of the rows fetched for it. -/
def Expanded (env : Env) (E : EntityMeta) (caller : Caller)
    (fetchRelatedJson : String → List String → List Value) (includes : List String) (key : String)
    (x : Value) : Prop :=
  ∃ table fkField, (key, table, fkField) ∈ E.relations ∧ key ∈ includes ∧
    (x = .null ∨ ∃ ids, ∃ obj ∈ fetchRelatedJson table ids, ∀ key' x', Carries x key' x' →
      RelatedShows env E key table caller obj key' x')

/-- What a record may show of a row under a key. -/
inductive Shows (env : Env) (E : EntityMeta) (scope : Option AccessScope) (caller : Caller)
    (fetchRelatedJson : String → List String → List Value) (includes : List String) (row : Value)
    (key : String) (x : Value) : Prop
  | own (h : Own env E scope caller row key x)
  | withheld (h : Withheld E.fieldPermissions caller key x)
  | related (h : Expanded env E caller fetchRelatedJson includes key x)

/-- A key that names a gated field, in either casing, and none the caller holds. -/
structure Locked (gated : List (String × String)) (caller : Caller) (key : String) : Prop where
  names : ∃ field ∈ gated, camelToSnakeCase field.1 = camelToSnakeCase key
  unheld : ∀ field ∈ gated, camelToSnakeCase field.1 = camelToSnakeCase key →
    caller.held field.2 = false

/-! ## The steps -/

section Steps

variable {env : Env} {E : EntityMeta} {scope : Option AccessScope} {caller : Caller}
  {v x : Value} {key : String} {names : List String}

theorem carries_removeFields (h : Carries (removeFields v names) key x) :
    Carries v key x ∧ key ∉ names := by
  obtain ⟨fields, hv, hmem⟩ := h
  unfold removeFields at hv
  split at hv
  · cases hv
    obtain ⟨hmem, hkey⟩ := List.mem_filter.mp hmem
    exact ⟨⟨_, rfl, hmem⟩, by simpa using hkey⟩
  · rename_i hobj
    exact absurd hv (hobj fields)

theorem carries_of_get? (h : v.get? key = some x) : Carries v key x := by
  unfold Value.get? at h
  split at h
  · obtain ⟨field, hfind, rfl⟩ := Option.map_eq_some_iff.mp h
    have hkey : field.1 = key := by simpa using List.find?_some hfind
    exact ⟨_, rfl, hkey ▸ List.mem_of_find?_eq_some hfind⟩
  · cases h

/-- A field that is still there is the field that was there. -/
theorem get?_of_removeFields (h : (removeFields v names).get? key = some x) :
    v.get? key = some x := by
  have hkey := (carries_removeFields (carries_of_get? h)).2
  unfold removeFields at h
  split at h
  · have hsame : (fun field : String × Value =>
        decide ((!names.contains field.1) = true ∧ (field.1 == key) = true)) =
        fun field => field.1 == key := by
      funext field
      by_cases hf : field.1 = key
      · simp [hf, hkey]
      · simp [hf]
    rwa [Value.get?, List.find?_filter, hsame] at h
  · exact h

theorem carries_insertIfObject {name : String} {y : Value}
    (h : Carries (v.insertIfObject name y) key x) :
    (key = name ∧ x = y) ∨ (Carries v key x ∧ key ≠ name) := by
  obtain ⟨fields', hv, hmem⟩ := h
  unfold Value.insertIfObject at hv
  split at hv
  · rename_i fields
    cases hv
    unfold Value.insertField at hmem
    split at hmem
    · obtain ⟨field, hfield, heq⟩ := List.mem_map.mp hmem
      split at heq
      · cases heq
        exact .inl ⟨rfl, rfl⟩
      · rename_i hne
        subst heq
        exact .inr ⟨⟨_, rfl, hfield⟩, by simpa using hne⟩
    · rename_i hnot
      rcases List.mem_append.mp hmem with hmem | hmem
      · refine .inr ⟨⟨_, rfl, hmem⟩, fun heq => hnot ?_⟩
        exact List.any_eq_true.mpr ⟨_, hmem, by simpa using heq⟩
      · cases List.mem_singleton.mp hmem
        exact .inl ⟨rfl, rfl⟩
  · rename_i hobj
    exact absurd hv (hobj fields')

theorem carries_redactGated {gated : List (String × String)}
    (h : Carries (redactGated v gated caller) key x) :
    (Carries v key x ∧ ∀ permission, (key, permission) ∈ gated → caller.held permission) ∨
      Withheld gated caller key x := by
  induction gated generalizing v with
  | nil => exact .inl ⟨h, by simp⟩
  | cons field gated ih =>
    rw [redactGated, List.foldl_cons] at h
    rcases ih h with ⟨hcarries, hheld⟩ | ⟨hnull, permission, hmem, hnot⟩
    · split at hcarries
      · rename_i hfield
        refine .inl ⟨hcarries, fun permission hmem => ?_⟩
        rcases List.mem_cons.mp hmem with rfl | hmem
        · exact hfield
        · exact hheld permission hmem
      · rename_i hfield
        rcases carries_insertIfObject hcarries with ⟨rfl, rfl⟩ | ⟨hcarries, hne⟩
        · exact .inr ⟨rfl, field.2, List.mem_cons_self, by simpa using hfield⟩
        · refine .inl ⟨hcarries, fun permission hmem => ?_⟩
          rcases List.mem_cons.mp hmem with rfl | hmem
          · exact absurd rfl hne
          · exact hheld permission hmem
    · exact .inr ⟨hnull, permission, List.mem_cons_of_mem _ hmem, hnot⟩

theorem maySeePrivate_of_canSeePrivate
    (h : canSeePrivate env (removeFields v names) scope E.ownerField) :
    MaySeePrivate env E scope v := by
  unfold canSeePrivate at h
  split at h
  · exact .inl rfl
  · rename_i id
    obtain ⟨owner, howner, hid⟩ := (Option.any_eq_true _ _).mp h
    obtain ⟨text, htext, huuid⟩ := Option.bind_eq_some_iff.mp howner
    obtain ⟨value, hvalue, hstr⟩ := Option.bind_eq_some_iff.mp htext
    obtain ⟨field, hfield, hget⟩ := Option.bind_eq_some_iff.mp hvalue
    have hvalue : value = .str text := by
      cases value <;> cases hstr
      rfl
    subst hvalue
    exact .inr ⟨id, field, text, rfl, hfield, get?_of_removeFields hget,
      by rw [huuid, beq_iff_eq.mp hid]⟩
  · cases h

theorem carries_applyFieldSecurity
    (h : Carries (applyFieldSecurity env (removeFields v names) scope E.privateFields E.ownerField)
      key x) :
    Carries v key x ∧ key ∉ names ∧ (key ∈ E.privateFields → MaySeePrivate env E scope v) := by
  unfold applyFieldSecurity at h
  split at h
  · rename_i hsee
    obtain ⟨hcarries, hkey⟩ := carries_removeFields h
    refine ⟨hcarries, hkey, fun hprivate => ?_⟩
    rcases Bool.or_eq_true_iff.mp hsee with hempty | hsee
    · rw [List.isEmpty_iff.mp hempty] at hprivate
      cases hprivate
    · exact maySeePrivate_of_canSeePrivate hsee
  · obtain ⟨hcarries, hprivate⟩ := carries_removeFields h
    obtain ⟨hcarries, hkey⟩ := carries_removeFields hcarries
    exact ⟨hcarries, hkey, fun hmem => absurd hmem hprivate⟩

/-- A secured row shows its own fields, or withholds them. -/
theorem carries_secure (h : Carries (secure env E v scope caller) key x) :
    Own env E scope caller v key x ∨ Withheld E.fieldPermissions caller key x := by
  rcases carries_redactGated h with ⟨hcarries, hheld⟩ | hnull
  · obtain ⟨hvalue, hsecret, hprivate⟩ := carries_applyFieldSecurity hcarries
    exact .inl ⟨hvalue, hsecret, hprivate, hheld⟩
  · exact .inr hnull

theorem carries_camelizeKeys (h : Carries (camelizeKeys env v) key x) :
    ∃ column, key = snakeToCamel env.toUppercase column ∧ Carries v column x := by
  obtain ⟨fields', hv, hmem⟩ := h
  unfold camelizeKeys at hv
  split at hv
  · rename_i fields
    cases hv
    have hfold (init : List (String × Value)) (rest : List (String × Value))
        (hrest : ∀ field ∈ rest, field ∈ fields)
        (hinit : ∀ field ∈ init, ∃ column, field.1 = snakeToCamel env.toUppercase column ∧
          (column, field.2) ∈ fields) :
        ∀ field ∈ rest.foldl (fun fields field =>
            Value.insertField fields (snakeToCamel env.toUppercase field.1) field.2) init,
          ∃ column, field.1 = snakeToCamel env.toUppercase column ∧ (column, field.2) ∈ fields := by
      induction rest generalizing init with
      | nil => exact hinit
      | cons field rest ih =>
        refine ih _ (fun f hf => hrest f (List.mem_cons_of_mem _ hf)) fun f hf => ?_
        have hins : Carries (Value.insertIfObject (.obj init)
            (snakeToCamel env.toUppercase field.1) field.2) f.1 f.2 := ⟨_, rfl, hf⟩
        rcases carries_insertIfObject hins with ⟨hkey, hval⟩ | ⟨⟨_, hobj, hf⟩, -⟩
        · exact ⟨field.1, hkey, hval ▸ hrest field List.mem_cons_self⟩
        · cases hobj
          exact hinit f hf
    obtain ⟨column, hkey, hcol⟩ := hfold [] fields (fun _ h => h) (by simp) (key, x) hmem
    exact ⟨column, hkey, ⟨_, rfl, hcol⟩⟩
  · rename_i hobj
    exact absurd hv (hobj fields')

/-- A related row shows none of the fields its relation or its table keeps back. -/
theorem carries_relatedRow {relation table : String}
    (h : Carries (relatedRow env E relation table v caller) key x) :
    RelatedShows env E relation table caller v key x := by
  rcases carries_redactGated h with ⟨hcarries, hheld⟩ | hnull
  · obtain ⟨hcarries, htable⟩ := carries_removeFields hcarries
    obtain ⟨hcarries, hrelation⟩ := carries_removeFields hcarries
    obtain ⟨column, hkey, hvalue⟩ := carries_camelizeKeys hcarries
    exact .own column hkey hvalue hrelation htable hheld
  · exact .withheld hnull

theorem carries_projectSparse (h : Carries (projectSparse v names) key x) : Carries v key x := by
  unfold projectSparse at h
  split at h
  · exact h
  · split at h
    · obtain ⟨fields, hv, hmem⟩ := h
      cases hv
      exact ⟨_, rfl, List.mem_of_mem_filter hmem⟩
    · exact h

end Steps

/-! ## Relations -/

section Relations

variable {env : Env} {E : EntityMeta} {scope : Option AccessScope} {caller : Caller}
  {fetchRelatedJson : String → List String → List Value} {includes : List String}
  {sources rows : List Value}

/-- Each row shows only what it may of one of the source rows. -/
def AllShow (env : Env) (E : EntityMeta) (scope : Option AccessScope) (caller : Caller)
    (fetchRelatedJson : String → List String → List Value) (includes : List String)
    (sources rows : List Value) : Prop :=
  ∀ row ∈ rows, ∃ source ∈ sources, ∀ key x, Carries row key x →
    Shows env E scope caller fetchRelatedJson includes source key x

section

variable (h : AllShow env E scope caller fetchRelatedJson includes sources rows)
include h

theorem AllShow.expandRelation
    {relation : String × String × String} (hrelation : relation ∈ E.relations)
    (hincludes : relation.1 ∈ includes) :
    AllShow env E scope caller fetchRelatedJson includes sources
      (expandRelation env E caller fetchRelatedJson rows relation) := by
  intro row hrow
  simp only [Core.expandRelation] at hrow
  split at hrow
  · exact h row hrow
  · obtain ⟨before, hbefore, rfl⟩ := List.mem_map.mp hrow
    obtain ⟨source, hsource, hshows⟩ := h before hbefore
    refine ⟨source, hsource, fun key x hcarries => ?_⟩
    rcases carries_insertIfObject hcarries with ⟨rfl, rfl⟩ | ⟨hcarries, -⟩
    · refine .related ⟨relation.2.1, relation.2.2, hrelation, hincludes, ?_⟩
      cases hlook : (textAt before relation.2.2).bind _ with
      | none => exact .inl rfl
      | some related =>
        obtain ⟨id, -, hlook⟩ := Option.bind_eq_some_iff.mp hlook
        obtain ⟨obj, hobj, hmade⟩ :=
          List.mem_filterMap.mp (List.mem_reverse.mp (Table.mem_of_lookup hlook))
        obtain ⟨_, -, heq⟩ := Option.map_eq_some_iff.mp hmade
        cases heq
        exact .inr ⟨_, obj, hobj, fun key' x' hx => carries_relatedRow hx⟩
    · exact hshows key x hcarries

theorem AllShow.expandIncludes :
    AllShow env E scope caller fetchRelatedJson includes sources
      (expandIncludes env E caller fetchRelatedJson rows includes) := by
  unfold Core.expandIncludes
  split
  · exact h
  · have hfold (relations : List (String × String × String)) (rows : List Value)
        (hrel : ∀ relation ∈ relations, relation ∈ E.relations ∧ relation.1 ∈ includes)
        (h : AllShow env E scope caller fetchRelatedJson includes sources rows) :
        AllShow env E scope caller fetchRelatedJson includes sources
          (relations.foldl (Core.expandRelation env E caller fetchRelatedJson) rows) := by
      induction relations generalizing rows with
      | nil => exact h
      | cons relation relations ih =>
        obtain ⟨hmem, hinc⟩ := hrel relation List.mem_cons_self
        exact ih _ (fun r hr => hrel r (List.mem_cons_of_mem _ hr)) (h.expandRelation hmem hinc)
    refine hfold _ _ (fun relation hmem => ?_) h
    obtain ⟨hmem, hinc⟩ := List.mem_filter.mp hmem
    exact ⟨hmem, by simpa using hinc⟩

theorem AllShow.projectSparse (names : List String) :
    AllShow env E scope caller fetchRelatedJson includes sources
      (rows.map fun row => projectSparse row names) := by
  intro row hrow
  obtain ⟨before, hbefore, rfl⟩ := List.mem_map.mp hrow
  obtain ⟨source, hsource, hshows⟩ := h before hbefore
  exact ⟨source, hsource, fun key x hx => hshows key x (carries_projectSparse hx)⟩

end

theorem AllShow.secure (sources : List Value) :
    AllShow env E scope caller fetchRelatedJson includes sources
      (sources.map fun source => secure env E source scope caller) := by
  intro row hrow
  obtain ⟨source, hsource, rfl⟩ := List.mem_map.mp hrow
  refine ⟨source, hsource, fun key x hx => ?_⟩
  rcases carries_secure hx with hown | hnull
  · exact .own hown
  · exact .withheld hnull

end Relations

/-! ## The recorded history -/

section History

variable {gated : List (String × String)} {caller : Caller} {key : String} {x : Value}

theorem withheld_of_locked (h : Locked gated caller key) : withheld gated caller key := by
  obtain ⟨field, hfield, hname⟩ := h.names
  unfold withheld
  cases hfind : gated.find? fun field =>
      camelToSnakeCase field.1 == camelToSnakeCase key with
  | none => exact absurd (beq_iff_eq.mpr hname) (List.find?_eq_none.mp hfind field hfield)
  | some found =>
    have hsame : camelToSnakeCase found.1 = camelToSnakeCase key := by
      simpa using List.find?_some hfind
    simp [h.unheld found (List.mem_of_find?_eq_some hfind) hsame]

mutual
/-- At every depth, a locked key stands over `null`. -/
theorem within_redactGatedDeep (h : Locked gated caller key) :
    ∀ v : Value, Within key x (redactGatedDeep gated caller v) → x = .null
  | .null, hx | .bool _, hx | .num _, hx | .str _, hx => by
    rw [redactGatedDeep] at hx
    · cases hx
    all_goals nofun
  | .arr items, hx => by
    rw [redactGatedDeep] at hx
    cases hx with
    | inItem hmem hx => exact within_redactItems h items _ hmem hx
  | .obj fields, hx => by
    rw [redactGatedDeep] at hx
    cases hx with
    | field hmem => exact (within_redactFields h fields key x hmem).1 rfl
    | inField hmem hx => exact (within_redactFields h fields _ _ hmem).2 hx

theorem within_redactItems (h : Locked gated caller key) :
    ∀ (items : List Value) (item : Value), item ∈ redactItems gated caller items →
      Within key x item → x = .null
  | [], item, hmem, hx => by
    rw [redactItems] at hmem
    cases hmem
  | first :: items, item, hmem, hx => by
    rw [redactItems] at hmem
    rcases List.mem_cons.mp hmem with rfl | hmem
    · exact within_redactGatedDeep h first hx
    · exact within_redactItems h items item hmem hx

theorem within_redactFields (h : Locked gated caller key) :
    ∀ (fields : List (String × Value)) (name : String) (inner : Value),
      (name, inner) ∈ redactFields gated caller fields →
        (name = key → inner = .null) ∧ (Within key x inner → x = .null)
  | [], name, inner, hmem => by
    rw [redactFields] at hmem
    cases hmem
  | (first, value) :: fields, name, inner, hmem => by
    rw [redactFields] at hmem
    rcases List.mem_cons.mp hmem with heq | hmem
    · cases heq
      refine ⟨fun hkey => ?_, fun hx => ?_⟩
      · rw [hkey, if_pos (withheld_of_locked h)]
      · split at hx
        · cases hx
        · exact within_redactGatedDeep h value hx
    · exact within_redactFields h fields name inner hmem
end

end History

/-! ## Requests -/

section Requests

variable {Entity Body Err Info : Type}

/-- The scope a request's records are shown in; writes have none. -/
def CrudRequest.scope : CrudRequest Body → Option AccessScope
  | .list _ scope | .listDeleted _ scope | .get _ _ scope | .getDeleted _ _ scope => scope
  | _ => none

/-- The relations a request expands. -/
def CrudRequest.includes : CrudRequest Body → List String
  | .list params _ | .listDeleted params _ | .get _ params _ => includeRelations params.filters
  | _ => []

/-- The record a call answers with. -/
def oneOf (result : Except Err (Option Entity)) : List Entity :=
  match result with
  | .ok entity => entity.toList
  | .error _ => []

/-- The records a call answers with. -/
def manyOf (result : Except Err (List Entity)) : List Entity :=
  match result with
  | .ok entities => entities
  | .error _ => []

/-- Both sides of a previewed row. -/
def BulkPreviewRow.sides (row : BulkPreviewRow Entity Err) : List Entity :=
  match row.outcome with
  | .ok (before, after) => [before, after]
  | .error _ => []

/-- The entities the service answers a request with. -/
def CrudRequest.served (env : Env) (service : CrudService Entity Body Err Info) :
    CrudRequest Body → List Entity
  | .list params _ =>
    let params := normalized params
    manyOf ((service.listWithInfo params.page params.limit (repositoryFilters params)).map (·.1))
  | .listDeleted params _ =>
    let params := normalized params
    manyOf ((service.listDeletedFiltered params.page params.limit
      (repositoryFilters params)).map (·.1))
  | .get id _ _ => oneOf (service.getById id)
  | .getDeleted id _ _ => oneOf (service.getDeletedById id)
  | .create dto _ => oneOf ((service.create dto).map some)
  | .upsert dto _ => oneOf ((service.upsert dto).map some)
  | .update id dto _ => oneOf (service.update id dto)
  | .partialUpdate id fields => oneOf (service.partialUpdate id (snakeKeys fields))
  | .restore id => oneOf (service.restore id)
  | .bulkCreate items _ => manyOf (service.bulkCreate items)
  | .bulkRestore ids => manyOf (service.bulkRestore ids)
  | .bulkUpdate raw =>
    match raw.zipIdx.mapM fun item => bulkItem env service item.2 item.1 with
    | .ok items => manyOf (service.bulkUpdate items)
    | .error _ => []
  | .bulkPatch items =>
    manyOf (service.bulkPartialUpdate (items.map fun item => (item.1, snakeKeys item.2)))
  | .bulkPatchPreview items =>
    match service.previewBulkPartialUpdate (items.map fun item => (item.1, snakeKeys item.2)) with
    | .ok (some rows) => rows.flatMap (·.sides)
    | _ => []
  | .history .. => []

/-- What an answer may show. -/
structure Discreet (env : Env) (E : EntityMeta) (service : CrudService Entity Body Err Info)
    (caller : Caller) (req : CrudRequest Body) (answer : Answer Err Info) : Prop where
  /-- A record shows an entity the service answered with, as far as the caller may see it. -/
  records : AllShow env E req.scope caller service.fetchRelatedJson req.includes
    ((req.served env service).map service.toResponse) answer.records
  /-- A previewed change shows a patched field of such an entity, or `null`. -/
  preview : ∀ data, answer = .preview data → ∀ change ∈ data.changes,
    ∀ x ∈ [change.before, change.after], x = .null ∨
      ∃ key ∈ [snakeToCamel env.toUppercase change.field, change.field],
        ∃ e ∈ req.served env service, Own env E none caller (service.toResponse e) key x
  /-- Recorded history shows nothing under a key that names only fields the caller does not hold. -/
  history : ∀ data, answer = .history data → data = notAudited ∨
    ∀ key x, Within key x data → Locked E.fieldPermissions caller key → x = .null

variable {env : Env} {E : EntityMeta} {service : CrudService Entity Body Err Info}
  {caller : Caller} {scope : Option AccessScope} {includes : List String} {req : CrudRequest Body}
  {answer : Answer Err Info} {patched : List (String × List String)} (params : ListQueryParams)
  {change : FieldChange} (id : String) (params : ListQueryParams)

theorem AllShow.nil (sources : List Value) :
    AllShow env E scope caller service.fetchRelatedJson includes sources [] := nofun

/-- An answer that is neither a preview nor a history is as discreet as its records. -/
theorem Discreet.of_records
    (h : AllShow env E req.scope caller service.fetchRelatedJson req.includes
      ((req.served env service).map service.toResponse) answer.records)
    (hpreview : ∀ data, answer ≠ .preview data) (hhistory : ∀ data, answer ≠ .history data) :
    Discreet env E service caller req answer :=
  ⟨h, fun data hd => absurd hd (hpreview data), fun data hd => absurd hd (hhistory data)⟩

/-- The answers that say no. -/
def Answer.refuses : Answer Err Info → Bool
  | .rejected _ | .error _ | .notFound _ | .failed _ => true
  | _ => false

theorem Discreet.of_refuses (h : answer.refuses = true) :
    Discreet env E service caller req answer := by
  cases answer with
  | rejected violations => exact .of_records (.nil _) nofun nofun
  | error message => exact .of_records (.nil _) nofun nofun
  | notFound id => exact .of_records (.nil _) nofun nofun
  | failed err => exact .of_records (.nil _) nofun nofun
  | _ => cases h

/-- A check before the rest of a route. -/
theorem Discreet.unless {c : Prop} [Decidable c] {refusal : Answer Err Info}
    (hrefuses : refusal.refuses = true) (h : Discreet env E service caller req answer) :
    Discreet env E service caller req (if c then refusal else answer) := by
  split
  · exact .of_refuses hrefuses
  · exact h

theorem pageItems_allShow (entities : List Entity) :
    AllShow env E scope caller service.fetchRelatedJson (includeRelations params.filters)
      (entities.map service.toResponse)
      (pageItems env E service caller scope params entities) := by
  have hrows : (entities.map fun e => secure env E (service.toResponse e) scope caller) =
      (entities.map service.toResponse).map fun row => secure env E row scope caller := by
    simp
  simp only [pageItems, hrows]
  exact ((AllShow.secure _).expandIncludes).projectSparse _

theorem writeAnswer_discreet (hscope : req.scope = none) {entity : Entity}
    (hserved : entity ∈ req.served env service) :
    Discreet env E service caller req (writeAnswer env E service caller entity) := by
  refine .of_records (fun row hrow => ?_) nofun nofun
  have hall : AllShow env E none caller service.fetchRelatedJson req.includes
      [service.toResponse entity] [secure env E (service.toResponse entity) none caller] :=
    .secure [service.toResponse entity]
  obtain ⟨source, hsource, hshows⟩ := hall row hrow
  rw [List.mem_singleton] at hsource
  subst hsource
  exact ⟨_, List.mem_map_of_mem hserved, hscope ▸ hshows⟩

theorem writeAnswerFor_discreet (hscope : req.scope = none) {id : String}
    {result : Except Err (Option Entity)} (hserved : req.served env service = oneOf result) :
    Discreet env E service caller req (writeAnswerFor env E service caller id result) := by
  unfold writeAnswerFor
  split
  · exact writeAnswer_discreet hscope (by simp [hserved, oneOf])
  · exact .of_refuses rfl
  · exact .of_refuses rfl

theorem bulkAnswer_discreet (hscope : req.scope = none) {result : Except Err (List Entity)}
    (hserved : req.served env service = manyOf result) :
    Discreet env E service caller req (bulkAnswer env E service caller result) := by
  unfold bulkAnswer
  split
  · rename_i entities
    refine .of_records ?_ nofun nofun
    have hall : AllShow env E none caller service.fetchRelatedJson req.includes
        (entities.map service.toResponse)
        ((entities.map service.toResponse).map fun row => secure env E row none caller) :=
      .secure _
    rw [List.map_map] at hall
    rw [hscope, hserved]
    exact hall
  · exact .of_refuses rfl

/-- A page of records. -/
theorem page_discreet {params : ListQueryParams} (hscope : req.scope = scope)
    (hincludes : req.includes = includeRelations params.filters) {entities : List Entity}
    (hserved : req.served env service = entities)
    (hrecords : answer.records = pageItems env E service caller scope params entities)
    (hpreview : ∀ data, answer ≠ .preview data) (hhistory : ∀ data, answer ≠ .history data) :
    Discreet env E service caller req answer := by
  refine .of_records ?_ hpreview hhistory
  rw [hscope, hincludes, hserved, hrecords]
  exact pageItems_allShow params entities

theorem listHandler_discreet :
    Discreet env E service caller (.list params scope)
      (listHandler env E service caller params scope) := by
  refine .unless rfl ?_
  split
  · next hlist =>
    refine page_discreet rfl rfl ?_ rfl nofun nofun
    simp [CrudRequest.served, hlist, manyOf, Except.map]
  · exact .of_refuses rfl

theorem listDeletedHandler_discreet :
    Discreet env E service caller (.listDeleted params scope)
      (listDeletedHandler env E service caller params scope) := by
  refine .unless rfl ?_
  split
  · next hlist =>
    refine page_discreet rfl rfl ?_ rfl nofun nofun
    simp [CrudRequest.served, hlist, manyOf, Except.map]
  · exact .of_refuses rfl

theorem getHandler_discreet :
    Discreet env E service caller (.get id params scope)
      (getHandler env E service caller id params scope) := by
  simp only [getHandler]
  split
  · exact .of_refuses rfl
  · split
    · exact .of_refuses rfl
    · split
      · rename_i entity hget
        refine .of_records ?_ nofun nofun
        have hserved : (CrudRequest.get id params scope).served env service = [entity] := by
          simp [CrudRequest.served, hget, oneOf]
        rw [hserved]
        have hsecured : AllShow env E scope caller service.fetchRelatedJson
            (includeRelations params.filters) [service.toResponse entity]
            [secure env E (service.toResponse entity) scope caller] :=
          .secure [service.toResponse entity]
        have hrows := hsecured.expandIncludes
        -- The row that is shown is the first of the expanded ones, or the row itself.
        have hfirst : AllShow env E scope caller service.fetchRelatedJson
            (includeRelations params.filters) [service.toResponse entity]
            [(expandIncludes env E caller service.fetchRelatedJson
              [secure env E (service.toResponse entity) scope caller]
              (includeRelations params.filters)).headD
                (secure env E (service.toResponse entity) scope caller)] := by
          intro row hrow
          rw [List.mem_singleton] at hrow
          subst hrow
          generalize expandIncludes env E caller service.fetchRelatedJson
            [secure env E (service.toResponse entity) scope caller]
            (includeRelations params.filters) = rows at hrows
          cases rows with
          | nil => exact hsecured _ (List.mem_singleton_self _)
          | cons row rows => exact hrows _ List.mem_cons_self
        exact hfirst.projectSparse _
      · exact .of_refuses rfl
      · exact .of_refuses rfl

theorem getDeletedHandler_discreet :
    Discreet env E service caller (.getDeleted id params scope)
      (getDeletedHandler env E service caller id params scope) := by
  unfold getDeletedHandler
  split
  · exact .of_refuses rfl
  · split
    · rename_i entity hget
      refine .of_records ?_ nofun nofun
      have hserved : (CrudRequest.getDeleted id params scope).served env service = [entity] := by
        simp [CrudRequest.served, hget, oneOf]
      rw [hserved]
      have hsecured : AllShow env E scope caller service.fetchRelatedJson []
          [service.toResponse entity] [secure env E (service.toResponse entity) scope caller] :=
        .secure [service.toResponse entity]
      exact hsecured.projectSparse _
    · exact .of_refuses rfl
    · exact .of_refuses rfl

/-- What a patched field reads of a secured record. -/
theorem own_of_readPatched {row x : Value} {field : String}
    (h : readPatched env (secure env E row none caller) field = x) :
    x = .null ∨ ∃ key ∈ [snakeToCamel env.toUppercase field, field],
      Own env E none caller row key x := by
  have hshown {key : String} (hget : (secure env E row none caller).get? key = some x) :
      x = .null ∨ Own env E none caller row key x := by
    rcases carries_secure (carries_of_get? hget) with hown | hnull
    · exact .inr hown
    · exact .inl hnull.1
  unfold readPatched at h
  cases hcamel : (secure env E row none caller).get? (snakeToCamel env.toUppercase field) with
  | some y =>
    rw [hcamel] at h
    cases h
    exact (hshown hcamel).imp_right fun hown => ⟨_, List.mem_cons_self, hown⟩
  | none =>
    rw [hcamel] at h
    cases hplain : (secure env E row none caller).get? field with
    | some y =>
      rw [hplain] at h
      cases h
      exact (hshown hplain).imp_right fun hown => ⟨_, by simp, hown⟩
    | none =>
      rw [hplain] at h
      exact .inl h.symm

/-- A change compares what the two records of a row hold under its field. -/
def Compares (env : Env) (row : String × PreviewOutcome) (change : FieldChange) : Prop :=
  ∃ before after, row.2 = .ok (before, after) ∧
    change.before = readPatched env before change.field ∧
    change.after = readPatched env after change.field

theorem change_of_add {out : BulkPreview}
    {row : String × PreviewOutcome}
    (h : change ∈ (out.add env patched row).changes) :
    change ∈ out.changes ∨ Compares env row change := by
  unfold BulkPreview.add at h
  split at h
  · rename_i before after hrow
    dsimp only at h
    split at h
    · exact .inl h
    · rw [BulkPreview.changes, List.flatMap_append, List.mem_append] at h
      rcases h with h | h
      · exact .inl h
      · rw [List.flatMap_singleton] at h
        obtain ⟨field, -, rfl⟩ := List.mem_map.mp (List.mem_of_mem_filter h)
        exact .inr ⟨before, after, hrow, rfl, rfl⟩
  · exact .inl h

/-- Every previewed change compares two records of the dry run. -/
theorem change_of_previewAnswer {rows : List (String × PreviewOutcome)}
    (h : change ∈ (previewAnswer env rows patched).changes) :
    ∃ row ∈ rows, Compares env row change := by
  have hfold (rows : List (String × PreviewOutcome)) (init : BulkPreview)
      (h : change ∈ (rows.foldl (BulkPreview.add env patched) init).changes) :
      change ∈ init.changes ∨ ∃ row ∈ rows, Compares env row change := by
    induction rows generalizing init with
    | nil => exact .inl h
    | cons row rows ih =>
      rcases ih _ h with h | ⟨r, hr, hcompares⟩
      · exact (change_of_add h).imp_right fun hc => ⟨row, List.mem_cons_self, hc⟩
      · exact .inr ⟨r, List.mem_cons_of_mem _ hr, hcompares⟩
  exact (hfold rows {} h).resolve_left (by simp [BulkPreview.changes])

theorem bulkPatchRefusal_discreet {items : List (String × List (String × Value))}
    (h : bulkPatchRefusal env E caller items = some answer) :
    Discreet env E service caller req answer := by
  simp only [bulkPatchRefusal] at h
  split at h
  · cases h
    exact .of_refuses rfl
  · split at h
    · cases h
      exact .of_refuses rfl
    · split at h
      · cases h
        exact .of_refuses rfl
      · cases h

theorem bulkPatchPreviewHandler_discreet (items : List (String × List (String × Value))) :
    Discreet env E service caller (.bulkPatchPreview items)
      (bulkPatchPreviewHandler env E service caller items) := by
  unfold bulkPatchPreviewHandler
  split
  · rename_i hrefusal
    exact bulkPatchRefusal_discreet hrefusal
  · dsimp only
    split
    · rename_i rows hpreview
      refine ⟨.nil _, fun data hdata change hchange x hx => ?_, nofun⟩
      cases hdata
      obtain ⟨entry, hentry, before, after, hout, hb, ha⟩ := change_of_previewAnswer hchange
      obtain ⟨row, hrow, rfl⟩ := List.mem_map.mp hentry
      have hserved {e : Entity} (he : e ∈ row.sides) :
          e ∈ (CrudRequest.bulkPatchPreview items).served env service := by
        simp only [CrudRequest.served, hpreview]
        exact List.mem_flatMap.mpr ⟨row, hrow, he⟩
      simp only [previewOutcome] at hout
      split at hout
      · rename_i b a hrowout
        cases hout
        have hside {e : Entity} (he : e ∈ row.sides)
            (hread : readPatched env (secure env E (service.toResponse e) none caller)
              change.field = x) :
            x = .null ∨ ∃ key ∈ [snakeToCamel env.toUppercase change.field, change.field],
              ∃ e ∈ (CrudRequest.bulkPatchPreview items).served env service,
                Own env E none caller (service.toResponse e) key x := by
          refine (own_of_readPatched hread).imp_right ?_
          rintro ⟨key, hkey, hown⟩
          exact ⟨key, hkey, e, hserved he, hown⟩
        rcases List.mem_pair.mp hx with rfl | rfl
        · exact hside (by simp [BulkPreviewRow.sides, hrowout]) hb.symm
        · exact hside (by simp [BulkPreviewRow.sides, hrowout]) ha.symm
      · cases hout
    · exact .of_refuses rfl
    · exact .of_refuses rfl

theorem historyHandler_discreet (provider : Option HistoryProvider) (id : String)
    (params : ListQueryParams) :
    Discreet env E service caller (.history provider id params)
      (historyHandler env E service caller provider id params) := by
  unfold historyHandler
  split
  · exact .of_refuses rfl
  · exact .of_refuses rfl
  · exact .of_refuses rfl
  · dsimp only
    split
    · refine ⟨.nil _, nofun, fun data hdata => .inr fun key x hx hlocked => ?_⟩
      cases hdata
      exact within_redactGatedDeep hlocked _ hx
    · refine ⟨.nil _, nofun, fun data hdata => .inl ?_⟩
      cases hdata
      rfl
    · exact .of_refuses rfl

/-- Whatever a request to a generic route asks for, its answer shows no secret, a private field only
to a platform caller or the owner, and a gated field the caller does not hold only as `null`. A related
row shows none of the fields its relation or its table's entity keeps back, and recorded history
nothing under a key that names only fields the caller does not hold. -/
theorem respond_discreet (env : Env) (E : EntityMeta) (service : CrudService Entity Body Err Info)
    (caller : Caller) (req : CrudRequest Body) :
    Discreet env E service caller req (respond env E service caller req) := by
  cases req with
  | list params scope => exact listHandler_discreet params
  | listDeleted params scope => exact listDeletedHandler_discreet params
  | get id params scope => exact getHandler_discreet id params
  | getDeleted id params scope => exact getDeletedHandler_discreet id params
  | create dto keys =>
    refine .unless rfl ?_
    split
    · next hcreate =>
      exact writeAnswer_discreet rfl (by simp [CrudRequest.served, hcreate, oneOf, Except.map])
    · exact .of_refuses rfl
  | upsert dto keys =>
    refine .unless rfl (.unless rfl ?_)
    split
    · next hupsert =>
      exact writeAnswer_discreet rfl (by simp [CrudRequest.served, hupsert, oneOf, Except.map])
    · exact .of_refuses rfl
  | update id dto keys =>
    simp only [respond, updateHandler]
    split
    · exact .of_refuses rfl
    · exact .unless rfl (writeAnswerFor_discreet rfl rfl)
  | partialUpdate id fields =>
    simp only [respond, partialUpdateHandler]
    split
    · exact .of_refuses rfl
    · exact .unless rfl (writeAnswerFor_discreet rfl rfl)
  | restore id =>
    simp only [respond, restoreHandler]
    split
    · exact .of_refuses rfl
    · exact writeAnswerFor_discreet rfl rfl
  | bulkCreate items keys =>
    refine .unless rfl ?_
    split
    · exact .of_refuses rfl
    · exact bulkAnswer_discreet rfl rfl
  | bulkRestore ids =>
    simp only [respond, bulkRestoreHandler]
    split
    · exact .of_refuses rfl
    · exact .unless rfl (bulkAnswer_discreet rfl rfl)
  | bulkUpdate raw =>
    simp only [respond, bulkUpdateHandler]
    split
    · exact .of_refuses rfl
    · refine .unless rfl ?_
      split
      · next hitems => exact bulkAnswer_discreet rfl (by simp [CrudRequest.served, hitems])
      · exact .of_refuses rfl
  | bulkPatch items =>
    simp only [respond, bulkPatchHandler]
    split
    · rename_i hrefusal
      exact bulkPatchRefusal_discreet hrefusal
    · exact bulkAnswer_discreet rfl rfl
  | bulkPatchPreview items => exact bulkPatchPreviewHandler_discreet items
  | history provider id params => exact historyHandler_discreet provider id params

end Requests

/-! ## A related row's private field -/

/-- Timesheets, each of which may be shown with its employee. -/
def timesheets : EntityMeta where
  relations := [("employee", "hr.employees", "employeeId")]

/-- Employees, whose salary is for their own company. -/
def employees : EntityMeta where
  privateFields := ["salary"]
  ownerField := some "companyId"

/-- The ids of two companies. -/
def firstCompany : String := "00000000-0000-0000-0000-000000000001"
def secondCompany : String := "00000000-0000-0000-0000-000000000002"

/-- An environment that knows the two ids. -/
def twoCompanies : Env where
  tables := asciiTables
  toUppercase c := [c.toUpper]
  parseUuid s := if s = firstCompany then some 1 else if s = secondCompany then some 2 else none

/-- A timesheet of an employee of the first company. -/
def timesheetService : CrudService Value Unit Unit Unit where
  toResponse := id
  listWithInfo _ _ _ := .ok ([.obj [("id", .str "t1"), ("employeeId", .str "e1")]], ())
  listDeletedFiltered _ _ _ := .error ()
  getById _ := .error ()
  getDeletedById _ := .error ()
  create _ := .error ()
  upsert _ := .error ()
  update _ _ := .error ()
  partialUpdate _ _ := .error ()
  restore _ := .error ()
  bulkCreate _ := .error ()
  bulkRestore _ := .error ()
  bulkUpdate _ := .error ()
  bulkPartialUpdate _ := .error ()
  previewBulkPartialUpdate _ := .error ()
  fetchRelatedJson _ _ :=
    [.obj [("id", .str "e1"), ("company_id", .str firstCompany), ("salary", .num (.int 5000))]]
  tableName := none
  supportsUpsert := false
  decodeUpdate _ := .error []
  violationsOf _ := none
  errorText _ := ""

/-- An expanded row is not run through its own entity's private fields: the second company is served
the salary of an employee of the first. -/
theorem expanded_private_field :
    ∃ employee, (respond twoCompanies timesheets timesheetService none
        (.list { filters := [("include", "employee")] } (some (.company 2)))).records =
          [.obj [("id", .str "t1"), ("employeeId", .str "e1"), ("employee", employee)]] ∧
      Carries employee "salary" (.num (.int 5000)) ∧ "salary" ∈ employees.privateFields ∧
      ¬ MaySeePrivate twoCompanies employees (some (.company 2)) employee := by
  refine ⟨.obj [("id", .str "e1"), ("companyId", .str firstCompany), ("salary", .num (.int 5000))],
    by decide +kernel, ⟨_, rfl, by decide +kernel⟩, by decide, ?_⟩
  rintro (h | ⟨id, field, text, hscope, hfield, hrow, huuid⟩)
  · cases h
  · cases hscope
    cases hfield
    have htext : some (Value.str firstCompany) = some (.str text) := by
      rw [← hrow]
      decide +kernel
    cases htext
    revert huuid
    decide +kernel

end Backbone.Core
