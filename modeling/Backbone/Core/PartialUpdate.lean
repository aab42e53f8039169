import Backbone.Core.WriteGuard
import Backbone.Lib.Text
import Backbone.Orm.InWriteTx
import Mathlib.Data.List.Sort

/-!
# A patch, from its map to the stored row

`partialUpdate` merges a patch into the JSON form of the row as read, reads the result back as an
entity, and saves the entity: the columns whose JSON form differs are written in one statement. A
value passes through the entity's serde twice and through the column once, and only a difference in
the JSON form is written at all.

An entity gives each of its columns a value of a type of its own. What serde makes of a value, what
a column stores of a JSON value and what is read of a column are parameters. Hooks and lifecycle look
at the entity and may refuse; they do not change it. No other writer is at work.

Reference: `backbone-core/src/service.rs` (`partial_update`, `merge_patch`,
`refuse_protected_changes`, `patch_type_refusal`, `check_references`, `atomically`) and
`backbone-orm/src/repository.rs` (`update_statement`, `changed_columns`, `update_guarded`).
-/

namespace Backbone.Core

open Text
open Workflow (Value)
open Orm (Row isDeleted fieldValue differingFields assign updateChanged)
open Pg (Driver)

variable {c : String}

/-! ## Entities -/

/-- `serde_path_to_error::Segment`. -/
inductive PathSegment where
  | seq (index : ℕ)
  | map (key : String)
  | enum (variant : String)
  | unknown
deriving DecidableEq, Repr

/-- Why a JSON value is no entity, and where. -/
structure DecodeError where
  path : List PathSegment
  message : String
deriving DecidableEq, Repr

/-- `Reference`: a field that holds the key of a row of another table. -/
structure Reference where
  field : String
  table : String
  column : String
deriving DecidableEq, Repr

/-- An entity type with its serde and its reading of a row, column by column. -/
structure SerdeEntity (Val : Type) extends EntityType where
  /-- The JSON form of a column's value; nothing where the field is left out of it. -/
  encode : String → Val → Option Value
  /-- Reads a column's value from what the JSON form has under its key. -/
  decode : String → Option Value → Except DecodeError Val
  /-- Reads a column's value from the row. -/
  fromColumn : String → Value → Except String Val
  references : List Reference

/-- The values of an entity's columns. -/
abbrev Entity (Val : Type) := String → Option Val

/-- What `ServiceError` a partial update ends in. -/
inductive ServiceError where
  | violations (violations : List Violation)
  | repository (message : String)
  /-- A hook's or the lifecycle's own. -/
  | refused (message : String)
deriving DecidableEq, Repr

/-- The values read one by one, the first failure first. -/
def entityOf {ε Val : Type} (columns : List String) (read : String → Except ε Val) :
    Except ε (Entity Val) :=
  (columns.mapM read).map fun _ c => if c ∈ columns then (read c).toOption else none

namespace SerdeEntity

variable {Val : Type} (E : SerdeEntity Val)

/-- `FromRow`. -/
def fetch (row : Row) : Except ServiceError (Entity Val) :=
  (entityOf E.columns fun c => E.fromColumn c (row c)).mapError .repository

/-- `Serialize`. -/
def serialize (entity : Entity Val) : List (String × Value) :=
  E.columns.filterMap fun c => ((entity c).bind (E.encode c)).map (c, ·)

/-- `Deserialize`: the keys that are there are read in their order, then those that are not; a key
of no field is passed over. -/
def deserialize (fields : List (String × Value)) : Except DecodeError (Entity Val) :=
  let present := (E.columns.filter fun c => (fieldValue fields c).isSome).insertionSort (· ≤ ·)
  let absent := E.columns.filter fun c => (fieldValue fields c).isNone
  entityOf (present ++ absent) fun c => E.decode c (fieldValue fields c)

end SerdeEntity

/-! ## The merge -/

/-- `str::rfind`, as the text before what is found. -/
def beforeLast (s t : String) : Option String :=
  ((List.range (s.toList.length + 1)).reverse.find? fun i =>
    t.toList.isPrefixOf (s.toList.drop i)).map fun i => String.ofList (s.toList.take i)

/-- One segment of the path of a violation. -/
def segmentText : PathSegment → Option String
  | .seq index => some (toString index)
  | .map key => some key
  | .enum variant => some variant
  | .unknown => none

/-- `patch_type_refusal`: `required` on a field that may not be empty, `invalid_value` on one given a
value of the wrong kind. -/
def patchTypeRefusal (err : DecodeError) : ServiceError :=
  let path := join "/" (err.path.filterMap segmentText)
  let message := (beforeLast err.message " at line ").getD err.message
  match (stripPrefix message "missing field `").bind fun rest => (split rest '\x60').head? with
  | some field =>
    let fieldPath := if path = "" then field else path ++ "/" ++ field
    .violations [⟨fieldPath, "required", fieldPath ++ " is required"⟩]
  | none =>
    if startsWith message "invalid type: null" then
      let subject := if path = "" then "A value" else path
      .violations [⟨path, "required", subject ++ " is required"⟩]
    else
      let text := if path = "" then message else path ++ ": " ++ message
      .violations [⟨path, "invalid_value", text⟩]

/-- The refusal of a key the record has no field for. -/
def unknownField (key : String) : Violation where
  path := key
  code := "unknown_field"
  message := "unknown_field: `" ++ key ++ "` is not a field of this record"

/-- The keys of a patch inserted into an object. -/
def insertAll (fields object : List (String × Value)) : List (String × Value) :=
  fields.foldl (fun object f => Value.insertField object f.1 f.2) object

/-- The keys given a value that the JSON form does not have. A key set to null is exempt. -/
def unknownKeys (fields object : List (String × Value)) : List String :=
  ((fields.filter fun f => !f.2.isNull).map (·.1)).filter fun k => (fieldValue object k).isNone

/-! ## The service -/

/-- What a partial update asks while it runs: who writes, the hooks and the lifecycle, the other
tables, and whether the database lets the row stand. -/
structure PatchService (Val : Type) where
  actor : Option String := none
  time : ℤ := 0
  /-- `current_transition`. -/
  transition : Option String := none
  beforeUpdate : Entity Val → Except ServiceError Unit := fun _ => .ok ()
  hooksBefore : Entity Val → Entity Val → Except ServiceError Unit := fun _ _ => .ok ()
  afterUpdate : Entity Val → Except ServiceError Unit := fun _ => .ok ()
  hooksAfter : Entity Val → Entity Val → Except ServiceError Unit := fun _ _ => .ok ()
  /-- `reference_visible`; nothing where the repository cannot tell. -/
  referenceVisible : Reference → Value → Except ServiceError (Option Bool) := fun _ _ => .ok none
  /-- A constraint of the table that the row breaks. -/
  tableRefuses : Row → Option String := fun _ => none
  /-- A deferred constraint refuses the commit. -/
  commitRefused : Bool := false

/-- `atomically`: the rows the work has stored so far and its result, as one unit on the repository's
pool. The last durable row is the stored one. -/
def atomically {α : Type} (commitRefused : Bool) (row : Row)
    (work : List Row × Except ServiceError α) : Except ServiceError α × Row :=
  let opened := (Driver.begin ⟨.idle [row] fun _ => "", 0, false⟩).2
  let session := work.1.foldl (fun session stored => (session.exec stored false).2) opened.session
  let finished := Orm.finish { opened with session } 0 work.2.isOk commitRefused
  let result := if finished.1 then work.2
    else work.2.bind fun _ => .error (.repository "the commit was refused")
  (result, finished.2.session.durable.getLastD row)

namespace SerdeEntity

variable {Val : Type} (E : SerdeEntity Val) (S : PatchService Val)

/-- `merge_patch`. -/
def mergePatch (before : Entity Val) (fields : List (String × Value)) :
    Except ServiceError (Entity Val) := do
  let beforeObj := E.serialize before
  let patched ← (E.deserialize (insertAll fields beforeObj)).mapError patchTypeRefusal
  let afterObj := E.serialize patched
  let unknown := unknownKeys fields afterObj
  if unknown ≠ [] then
    .error (.violations ((unknown.insertionSort (· ≤ ·)).map unknownField))
  else do
    (E.refuseProtectedChanges S.transition (.obj beforeObj) (.obj afterObj)).mapError .violations
    return patched

/-- `check_references`: the references the write sets or moves are looked up. -/
def checkReferences (before after : Entity Val) : Except ServiceError Unit := do
  let afterObj := E.serialize after
  let beforeObj := E.serialize before
  let refused ← E.references.filterMapM fun reference =>
    match (fieldValue afterObj reference.field).filter fun v => !v.isNull with
    | none => pure none
    | some value =>
      if fieldValue beforeObj reference.field = some value then pure none
      else do
        let visible ← S.referenceVisible reference value
        return if visible = some false then some {
          path := reference.field
          code := "reference_missing"
          message := reference.field ++ " refers to a record that does not exist" } else none
  if refused.isEmpty then .ok () else .error (.violations refused)

/-- The question an update puts to the guard. -/
def updateCtx (before after : Entity Val) : WriteCtx where
  kind := .update
  before := some (.obj (E.serialize before))
  after := some (.obj (E.serialize after))
  actor := S.actor
  time := S.time
  transition := S.transition

/-- What comes before the write: the entity to save. -/
def prepare (before : Entity Val) (fields : List (String × Value)) :
    Except ServiceError (Entity Val) := do
  let patched ← E.mergePatch S before fields
  (E.consult (E.updateCtx S before patched)).mapError .violations
  S.beforeUpdate patched
  S.hooksBefore before patched
  E.checkReferences S before patched
  return patched

/-- What comes after the write: the row it answered, as an entity, shown to lifecycle and hooks. -/
def conclude (before : Entity Val) (answer : Row) :
    Except ServiceError (Option (Entity Val)) := do
  let saved ← E.fetch answer
  S.afterUpdate saved
  S.hooksAfter before saved
  return some saved

/-- `update_changed`: the row it leaves and the row it answers, if the table lets it. -/
def save (before patched : Entity Val) (row : Row) : Except ServiceError (Row × Option Row) :=
  match updateChanged E.populate (.obj (E.serialize before)) (.obj (E.serialize patched)) row with
  | .error message => .error (.repository message)
  | .ok (stored, answer) =>
    match S.tableRefuses stored with
    | some message => .error (.repository message)
    | none => .ok (stored, answer)

/-- The work of a partial update on the stored row: the row it stores, if it comes to that, and its
result. -/
def patchWork (fields : List (String × Value)) (row : Row) :
    List Row × Except ServiceError (Option (Entity Val)) :=
  if isDeleted row then ([], .ok none)
  else
    match E.fetch row with
    | .error err => ([], .error err)
    | .ok before =>
      match E.prepare S before fields with
      | .error err => ([], .error err)
      | .ok patched =>
        match E.save S before patched row with
        | .error err => ([], .error err)
        | .ok (_, none) => ([], .ok none)
        | .ok (stored, some answer) => ([stored], E.conclude S before answer)

/-- `partial_update`: what it answers, and the stored row after it. -/
def partialUpdate (fields : List (String × Value)) (row : Row) :
    Except ServiceError (Option (Entity Val)) × Row :=
  atomically S.commitRefused row (E.patchWork S fields row)

/-! ## What a patch is for -/

/-- Every patched field, read back, has the value patched, and every other column is as it was. -/
structure PatchEffect (fields : List (String × Value)) (row row' : Row) : Prop where
  patched : ∀ c ∈ E.columns, ∀ x, fieldValue fields c = some x →
    ∃ w, E.decode c (some x) = .ok w ∧ E.fromColumn c (row' c) = .ok w
  others : ∀ c, fieldValue fields c = none → row' c = row c

/-- A patched field has its value already, or the JSON form of the new value is there to differ from
the old one's and the column keeps it; a field that is not patched has, read back from the JSON form,
no new JSON form to be written, or one its column makes nothing new of. -/
structure Takes (fields : List (String × Value)) (row : Row) : Prop where
  patched : ∀ c ∈ E.columns, ∀ x, fieldValue fields c = some x → ∀ v w,
    E.fromColumn c (row c) = .ok v → E.decode c (some x) = .ok w →
      v = w ∨ ∃ y, E.encode c w = some y ∧ E.encode c v ≠ some y ∧
        E.fromColumn c (E.populate c y) = .ok w
  others : ∀ c ∈ E.columns, fieldValue fields c = none → ∀ v w,
    E.fromColumn c (row c) = .ok v → E.decode c (E.encode c v) = .ok w →
      ∀ y, E.encode c w = some y → E.encode c v ≠ some y → E.populate c y = row c

end SerdeEntity

/-! ## The transaction -/

/-- The unit keeps what the work stored if it answers `Ok` and the commit is not refused, and
nothing of it otherwise. -/
theorem atomically_eq {α : Type} (commitRefused : Bool) (row : Row) (writes : List Row)
    (result : Except ServiceError α) :
    (∀ err, result = .error err →
      atomically commitRefused row (writes, result) = (.error err, row)) ∧
    (∀ a, result = .ok a → atomically commitRefused row (writes, result) =
      if commitRefused then (.error (.repository "the commit was refused"), row)
      else (.ok a, writes.getLastD row)) := by
  have hunit : atomically commitRefused row (writes, result) =
      Orm.inWriteTxResult (.repository "the commit was refused") commitRefused row
        (writes, result) := rfl
  rw [hunit]
  exact Orm.inWriteTxResult_eq _ commitRefused row writes result

/-! ## Reading and writing an entity -/

section Serde

variable {ε Val : Type} {E : SerdeEntity Val}

theorem entityOf_eq_ok {columns : List String} {read : String → Except ε Val}
    {entity : Entity Val} (h : entityOf columns read = .ok entity) (c : String) :
    (c ∈ columns → ∃ v, read c = .ok v ∧ entity c = some v) ∧ (c ∉ columns → entity c = none) := by
  unfold entityOf at h
  cases hall : columns.mapM read with
  | error err =>
    rw [hall] at h
    cases h
  | ok values =>
    rw [hall] at h
    obtain rfl := Except.ok.inj h
    refine ⟨fun hc => ?_, fun hc => if_neg hc⟩
    obtain ⟨v, hv⟩ := exists_mapM_eq_ok.mp ⟨values, hall⟩ c hc
    refine ⟨v, hv, ?_⟩
    simp only [if_pos hc, hv]
    rfl

theorem fieldValue_eq (fields : List (String × Value)) (c : String) :
    fieldValue fields c = (fields.find? (·.1 == c)).map (·.2) := rfl

namespace SerdeEntity

theorem mem_serialize {entity : Entity Val} {f : String × Value} :
    f ∈ E.serialize entity ↔ f.1 ∈ E.columns ∧ (entity f.1).bind (E.encode f.1) = some f.2 := by
  unfold serialize
  rw [List.mem_filterMap]
  constructor
  · rintro ⟨c, hc, hf⟩
    obtain ⟨y, hy, rfl⟩ := Option.map_eq_some_iff.mp hf
    exact ⟨hc, hy⟩
  · rintro ⟨hc, hf⟩
    exact ⟨f.1, hc, by rw [hf]; rfl⟩

theorem fieldValue_serialize {entity : Entity Val} (hc : c ∈ E.columns) :
    fieldValue (E.serialize entity) c = (entity c).bind (E.encode c) := by
  refine Option.ext fun y => ?_
  rw [fieldValue_eq, Option.map_eq_some_iff]
  constructor
  · rintro ⟨f, hf, rfl⟩
    have hkey := List.find?_some hf
    obtain rfl : f.1 = c := beq_iff_eq.mp hkey
    exact (mem_serialize.mp (List.mem_of_find?_eq_some hf)).2
  · intro hy
    have hmem : (c, y) ∈ E.serialize entity := mem_serialize.mpr ⟨hc, hy⟩
    have hsome : ((E.serialize entity).find? (·.1 == c)).isSome := by
      rw [List.find?_isSome]
      exact ⟨(c, y), hmem, beq_self_eq_true c⟩
    obtain ⟨f, hf⟩ := Option.isSome_iff_exists.mp hsome
    have hkey := List.find?_some hf
    obtain rfl : f.1 = c := beq_iff_eq.mp hkey
    have hother := (mem_serialize.mp (List.mem_of_find?_eq_some hf)).2
    exact ⟨f, hf, Option.some.inj (hother.symm.trans hy)⟩

variable {patched : Entity Val}

/-- A column is written when the JSON form has a value for it that it did not have before. -/
theorem mem_differing {before : Entity Val} (hc : c ∈ E.columns) :
    c ∈ differingFields (E.serialize before) (E.serialize patched) ↔
      c ≠ "id" ∧ ∃ y, (patched c).bind (E.encode c) = some y ∧
        (before c).bind (E.encode c) ≠ some y := by
  unfold Orm.differingFields
  simp only [List.mem_map, List.mem_filter, decide_eq_true_eq]
  constructor
  · rintro ⟨f, ⟨hf, hid, hne⟩, rfl⟩
    rw [fieldValue_serialize hc] at hne
    exact ⟨hid, f.2, (mem_serialize.mp hf).2, hne⟩
  · rintro ⟨hid, y, hy, hne⟩
    refine ⟨(c, y), ⟨mem_serialize.mpr ⟨hc, hy⟩, hid, ?_⟩, rfl⟩
    rw [fieldValue_serialize hc]
    exact hne

theorem not_mem_differing {before : Entity Val} (hc : c ∉ E.columns) :
    c ∉ differingFields (E.serialize before) (E.serialize patched) := by
  intro h
  obtain ⟨hmem, -⟩ := Orm.mem_differingFields h
  obtain ⟨f, hf, rfl⟩ := List.mem_map.mp hmem
  exact hc (mem_serialize.mp hf).1

variable {fields : List (String × Value)}

theorem mem_present_append_absent :
    c ∈ (E.columns.filter fun c => (fieldValue fields c).isSome).insertionSort (· ≤ ·) ++
        E.columns.filter (fun c => (fieldValue fields c).isNone) ↔ c ∈ E.columns := by
  rw [List.mem_append, List.mem_insertionSort, List.mem_filter, List.mem_filter]
  cases fieldValue fields c <;> simp

/-- A patch's keys win over those of the object it is merged into. -/
theorem fieldValue_insertAll (hkeys : (fields.map (·.1)).Nodup)
    (object : List (String × Value)) (c : String) :
    fieldValue (insertAll fields object) c = (fieldValue fields c).or (fieldValue object c) := by
  induction fields generalizing object with
  | nil => rfl
  | cons f fields ih =>
    rw [List.map_cons, List.nodup_cons] at hkeys
    have hinsert : fieldValue (Value.insertField object f.1 f.2) c =
        if f.1 = c then some f.2 else fieldValue object c := Value.get?_insertField object f.1 f.2 c
    have hcons : fieldValue (f :: fields) c = if f.1 = c then some f.2 else fieldValue fields c := by
      rw [fieldValue_eq, fieldValue_eq, List.find?_cons]
      by_cases hf : f.1 = c
      · rw [if_pos hf, beq_iff_eq.mpr hf]
        rfl
      · rw [if_neg hf, beq_false_of_ne hf]
    change fieldValue (insertAll fields (Value.insertField object f.1 f.2)) c = _
    rw [ih hkeys.2, hinsert, hcons]
    by_cases hf : f.1 = c
    · have hnone : fieldValue fields c = none := by
        rw [fieldValue_eq, Option.map_eq_none_iff, List.find?_eq_none]
        intro g hg hkey
        have hgf : g.1 = f.1 := (beq_iff_eq.mp hkey).trans hf.symm
        exact hkeys.1 (hgf ▸ List.mem_map_of_mem hg)
      rw [hnone, if_pos hf, if_pos hf]
      rfl
    · rw [if_neg hf, if_neg hf]

end SerdeEntity

end Serde

/-! ## A patch that was saved -/

section Saved

variable {Val : Type} {E : SerdeEntity Val} {S : PatchService Val}
  {fields : List (String × Value)} {row row' : Row}

namespace SerdeEntity

variable {before patched : Entity Val} {result : Option (Entity Val)} {v w : Val} {answer : Row}

/-- What a column held, and what the patched entity has for it. -/
structure Reads (E : SerdeEntity Val) (fields : List (String × Value)) (row : Row) (c : String)
    (v w : Val) : Prop where
  held : E.fromColumn c (row c) = .ok v
  read : E.decode c ((fieldValue fields c).or (E.encode c v)) = .ok w

/-- What a partial update that answered an entity has done to each column. -/
structure Patched (E : SerdeEntity Val) (fields : List (String × Value)) (row row' : Row) :
    Prop where
  reads : ∀ c ∈ E.columns, ∃ v w, Reads E fields row c v w
  written : ∀ c ∈ E.columns, ∀ v w, Reads E fields row c v w → ∀ y, E.encode c w = some y →
    E.encode c v ≠ some y → row' c = E.populate c y ∧ c ≠ "id"
  kept : ∀ c ∈ E.columns, ∀ v w, Reads E fields row c v w →
    (∀ y, E.encode c w = some y → E.encode c v = some y) → row' c = row c
  outside : ∀ c, c ∉ E.columns → row' c = row c

/-- The JSON form of the key does not move. -/
theorem id_kept {transition : Option String}
    (h : E.refuseProtectedChanges transition (.obj (E.serialize before))
      (.obj (E.serialize patched)) = .ok ()) :
    fieldValue (E.serialize before) "id" = fieldValue (E.serialize patched) "id" := by
  unfold EntityType.refuseProtectedChanges at h
  simp only at h
  split at h
  · rename_i hnone
    by_contra hne
    have hid : "id" ∈ ((EntityType.alwaysWriteProtected ++ E.writeProtectedFields).filter fun key =>
        !(transition.isSome && E.stateFields.contains key)).filter fun key =>
        (Value.obj (E.serialize before)).get? key ≠ (Value.obj (E.serialize patched)).get? key := by
      rw [List.mem_filter, List.mem_filter]
      refine ⟨⟨by simp [EntityType.alwaysWriteProtected], by simp [E.id_not_state]⟩, ?_⟩
      exact decide_eq_true hne
    rw [List.isEmpty_iff, List.map_eq_nil_iff] at hnone
    rw [hnone] at hid
    cases hid
  · cases h

/-- A merge that succeeds reads every column back from the patch or from the JSON form. -/
theorem mergePatch_reads (hkeys : (fields.map (·.1)).Nodup) (hbefore : E.fetch row = .ok before)
    (h : E.mergePatch S before fields = .ok patched) :
    (∀ c ∈ E.columns, ∃ v w, Reads E fields row c v w ∧ before c = some v ∧ patched c = some w) ∧
      fieldValue (E.serialize before) "id" = fieldValue (E.serialize patched) "id" := by
  unfold mergePatch at h
  obtain ⟨entity, hentity, h⟩ := bind_eq_ok.mp h
  simp only at h
  split at h
  · cases h
  · obtain ⟨_, hprotected, hpure⟩ := bind_eq_ok.mp h
    obtain rfl : entity = patched := pure_eq_ok.mp hpure
    refine ⟨fun c hc => ?_, id_kept (mapError_eq_ok.mp hprotected)⟩
    obtain ⟨v, hv, hbv⟩ := (entityOf_eq_ok (mapError_eq_ok.mp hbefore) c).1 hc
    obtain ⟨w, hw, hpw⟩ := (entityOf_eq_ok (mapError_eq_ok.mp hentity) c).1
      (mem_present_append_absent.mpr hc)
    rw [fieldValue_insertAll hkeys, fieldValue_serialize hc, hbv] at hw
    exact ⟨v, w, ⟨hv, hw⟩, hbv, hpw⟩

theorem Reads.unique {v' w' : Val} (h : Reads E fields row c v w)
    (h' : Reads E fields row c v' w') : v = v' ∧ w = w' := by
  obtain rfl := Except.ok.inj (h.held.symm.trans h'.held)
  exact ⟨rfl, Except.ok.inj (h.read.symm.trans h'.read)⟩

/-- An update that answered a row has assigned the columns that differ. -/
theorem save_eq {stored : Row} (h : E.save S before patched row = .ok (stored, some answer)) :
    stored = assign E.populate (differingFields (E.serialize before) (E.serialize patched))
        (E.serialize patched) row ∧ answer = stored := by
  unfold save at h
  rw [Orm.updateChanged_eq] at h
  simp only at h
  split at h
  · cases h
  · split at h
    · simp at h
    · rw [Except.ok.injEq, Prod.mk.injEq, Option.some.injEq] at h
      exact ⟨h.1.symm, h.2.symm.trans h.1⟩

theorem patched_of_saved (hkeys : (fields.map (·.1)).Nodup) (hbefore : E.fetch row = .ok before)
    (hmerge : E.mergePatch S before fields = .ok patched)
    (hrow' : row' = assign E.populate (differingFields (E.serialize before) (E.serialize patched))
      (E.serialize patched) row) : Patched E fields row row' := by
  obtain ⟨hreads, hid⟩ := mergePatch_reads hkeys hbefore hmerge
  -- The values of a column, whichever way they were read.
  have hvalues : ∀ c ∈ E.columns, ∀ v w, Reads E fields row c v w →
      before c = some v ∧ patched c = some w := by
    intro c hc v w hvw
    obtain ⟨v', w', hvw', hv', hw'⟩ := hreads c hc
    obtain ⟨rfl, rfl⟩ := hvw.unique hvw'
    exact ⟨hv', hw'⟩
  constructor
  case reads =>
    intro c hc
    obtain ⟨v, w, hvw, -⟩ := hreads c hc
    exact ⟨v, w, hvw⟩
  case written =>
    intro c hc v w hvw y hy hne
    obtain ⟨hv, hw⟩ := hvalues c hc v w hvw
    have hkey : c ≠ "id" := by
      rintro rfl
      rw [fieldValue_serialize hc, fieldValue_serialize hc, hv, hw] at hid
      exact hne (hid.trans hy)
    have hmem : c ∈ differingFields (E.serialize before) (E.serialize patched) := by
      rw [mem_differing hc, hv, hw]
      exact ⟨hkey, y, hy, hne⟩
    refine ⟨?_, hkey⟩
    have hvalue : fieldValue (E.serialize patched) c = some y := by
      rw [fieldValue_serialize hc, hw]
      exact hy
    rw [hrow', assign, if_pos hmem, hvalue]
    rfl
  case kept =>
    intro c hc v w hvw hsame
    obtain ⟨hv, hw⟩ := hvalues c hc v w hvw
    have hmem : c ∉ differingFields (E.serialize before) (E.serialize patched) := by
      rw [mem_differing hc, hv, hw]
      rintro ⟨-, y, hy, hne⟩
      exact hne (hsame y hy)
    rw [hrow', assign, if_neg hmem]
  case outside =>
    intro c hc
    rw [hrow', assign, if_neg (not_mem_differing hc)]

/-- The work stores nothing, or it comes to the update of a prepared entity. -/
theorem patchWork_cases (E : SerdeEntity Val) (S : PatchService Val)
    (fields : List (String × Value)) (row : Row) :
    ((E.patchWork S fields row).1 = [] ∧ ∀ saved, (E.patchWork S fields row).2 ≠ .ok (some saved)) ∨
    ∃ before patched stored answer, E.fetch row = .ok before ∧
      E.prepare S before fields = .ok patched ∧
      E.save S before patched row = .ok (stored, some answer) ∧
      E.patchWork S fields row = ([stored], E.conclude S before answer) := by
  unfold patchWork
  by_cases hdeleted : isDeleted row
  · rw [if_pos hdeleted]
    exact .inl ⟨rfl, fun saved h => by cases h⟩
  · rw [if_neg hdeleted]
    cases hbefore : E.fetch row with
    | error err => exact .inl ⟨rfl, fun saved h => by cases h⟩
    | ok before =>
      cases hprepare : E.prepare S before fields with
      | error err => exact .inl (by simp [hprepare])
      | ok patched =>
        cases hsave : E.save S before patched row with
        | error err => exact .inl (by simp [hprepare, hsave])
        | ok result =>
          obtain ⟨stored, _ | answer⟩ := result
          · exact .inl (by simp [hprepare, hsave])
          · exact .inr ⟨before, patched, stored, answer, rfl, hprepare, hsave,
              by simp [hprepare, hsave]⟩

theorem merge_of_prepare (h : E.prepare S before fields = .ok patched) :
    E.mergePatch S before fields = .ok patched := by
  unfold prepare at h
  obtain ⟨entity, hmerge, h⟩ := bind_eq_ok.mp h
  obtain ⟨_, -, h⟩ := bind_eq_ok.mp h
  obtain ⟨_, -, h⟩ := bind_eq_ok.mp h
  obtain ⟨_, -, h⟩ := bind_eq_ok.mp h
  obtain ⟨_, -, h⟩ := bind_eq_ok.mp h
  rw [hmerge, pure_eq_ok.mp h]

/-- What comes after the write answers the row that was written. -/
theorem conclude_eq_ok (h : E.conclude S before answer = .ok result) :
    ∃ saved, result = some saved ∧ E.fetch answer = .ok saved := by
  unfold conclude at h
  obtain ⟨saved, hfetch, h⟩ := bind_eq_ok.mp h
  obtain ⟨_, -, h⟩ := bind_eq_ok.mp h
  obtain ⟨_, -, h⟩ := bind_eq_ok.mp h
  exact ⟨saved, (pure_eq_ok.mp h).symm, hfetch⟩

/-- The work that answers an entity has stored a row, and one that answers none has stored none. -/
theorem patchWork_ok (hkeys : (fields.map (·.1)).Nodup)
    (h : (E.patchWork S fields row).2 = .ok result) :
    (result = none ∧ (E.patchWork S fields row).1 = []) ∨
      ∃ saved stored, result = some saved ∧ (E.patchWork S fields row).1 = [stored] ∧
        Patched E fields row stored ∧ E.fetch stored = .ok saved := by
  rcases patchWork_cases E S fields row with
    ⟨hnone, hnot⟩ | ⟨before, patched, stored, answer, hbefore, hprepare, hsave, hwork⟩
  · cases result with
    | none => exact .inl ⟨rfl, hnone⟩
    | some saved => exact absurd h (hnot saved)
  · rw [hwork] at h ⊢
    obtain ⟨hstored, rfl⟩ := save_eq hsave
    obtain ⟨saved, rfl, hfetch⟩ := conclude_eq_ok h
    exact .inr ⟨saved, answer, rfl, rfl,
      patched_of_saved hkeys hbefore (merge_of_prepare hprepare) hstored, hfetch⟩

theorem Reads.of_patched {x : Value} (hx : fieldValue fields c = some x)
    (hv : E.fromColumn c (row c) = .ok v) (hw : E.decode c (some x) = .ok w) :
    Reads E fields row c v w :=
  ⟨hv, by rw [hx]; exact hw⟩

theorem Reads.of_other (hx : fieldValue fields c = none)
    (hv : E.fromColumn c (row c) = .ok v) (hw : E.decode c (E.encode c v) = .ok w) :
    Reads E fields row c v w :=
  ⟨hv, by rw [hx]; exact hw⟩

/-- What was saved is what the patch asked for exactly if the patch takes. -/
theorem effect_iff_takes (h : Patched E fields row row') :
    E.PatchEffect fields row row' ↔ E.Takes fields row := by
  constructor
  · intro heffect
    constructor
    case patched =>
      intro c hc x hx v w hv hw
      obtain ⟨w', hw', hread⟩ := heffect.patched c hc x hx
      obtain rfl := Except.ok.inj (hw.symm.trans hw')
      have hvw := Reads.of_patched hx hv hw
      by_cases hwrite : ∃ y, E.encode c w = some y ∧ E.encode c v ≠ some y
      · obtain ⟨y, hy, hne⟩ := hwrite
        rw [(h.written c hc v w hvw y hy hne).1] at hread
        exact .inr ⟨y, hy, hne, hread⟩
      · have hkept := h.kept c hc v w hvw fun y hy => by
          by_contra hne
          exact hwrite ⟨y, hy, hne⟩
        rw [hkept, hv] at hread
        exact .inl (Except.ok.inj hread)
    case others =>
      intro c hc hx v w hv hw y hy hne
      have hvw := Reads.of_other hx hv hw
      rw [← (h.written c hc v w hvw y hy hne).1]
      exact heffect.others c hx
  · intro htakes
    constructor
    case patched =>
      intro c hc x hx
      obtain ⟨v, w, hvw⟩ := h.reads c hc
      have hw := hvw.read
      rw [hx] at hw
      refine ⟨w, hw, ?_⟩
      rcases htakes.patched c hc x hx v w hvw.held hw with rfl | ⟨y, hy, hne, hread⟩
      · -- The field has its value: whatever its JSON form, it is the old one.
        rw [h.kept c hc v v hvw fun y hy => hy]
        exact hvw.held
      · rw [(h.written c hc v w hvw y hy hne).1]
        exact hread
    case others =>
      intro c hx
      by_cases hc : c ∈ E.columns
      · obtain ⟨v, w, hvw⟩ := h.reads c hc
        have hw := hvw.read
        rw [hx] at hw
        by_cases hwrite : ∃ y, E.encode c w = some y ∧ E.encode c v ≠ some y
        · obtain ⟨y, hy, hne⟩ := hwrite
          rw [(h.written c hc v w hvw y hy hne).1]
          exact htakes.others c hc hx v w hvw.held hw y hy hne
        · refine h.kept c hc v w hvw fun y hy => ?_
          by_contra hne
          exact hwrite ⟨y, hy, hne⟩
      · exact h.outside c hc

/-! ## Entities that come back as they are -/

/-- Every value is read back from its JSON form, and from the column its JSON form is stored in. -/
structure Lossless (E : SerdeEntity Val) : Prop where
  decodes : ∀ c v, E.decode c (E.encode c v) = .ok v
  stores : ∀ c w y, E.encode c w = some y → E.fromColumn c (E.populate c y) = .ok w

/-- Of such an entity a patch takes exactly if it puts no field that holds something else to a value
the JSON form leaves out. -/
theorem Lossless.takes_iff (hE : Lossless E) :
    E.Takes fields row ↔ ∀ c ∈ E.columns, ∀ x, fieldValue fields c = some x → ∀ v w,
      E.fromColumn c (row c) = .ok v → E.decode c (some x) = .ok w → E.encode c w = none →
        v = w := by
  constructor
  · intro h c hc x hx v w hv hw hnone
    rcases h.patched c hc x hx v w hv hw with heq | ⟨y, hy, -⟩
    · exact heq
    · rw [hnone] at hy
      cases hy
  · intro h
    constructor
    case patched =>
      intro c hc x hx v w hv hw
      cases hy : E.encode c w with
      | none => exact .inl (h c hc x hx v w hv hw hy)
      | some y =>
        by_cases hsame : E.encode c v = some y
        · have hdecode := hE.decodes c w
          rw [hy, ← hsame, hE.decodes c v] at hdecode
          exact .inl (Except.ok.inj hdecode)
        · exact .inr ⟨y, rfl, hsame, hE.stores c w y hy⟩
    case others =>
      intro c hc hx v w hv hw y hy hne
      rw [hE.decodes c v] at hw
      obtain rfl := Except.ok.inj hw
      exact absurd hy hne

end SerdeEntity

end Saved

/-! ## The theorem -/

/-- A partial update that fails or finds no live row leaves the row as it was. One that answers an
entity has stored what the patch asked for exactly if the patch takes, and answers what is stored. -/
theorem partial_update_effect {Val : Type} (E : SerdeEntity Val) (S : PatchService Val)
    (fields : List (String × Value)) (hkeys : (fields.map (·.1)).Nodup) (row : Row) :
    (∀ err, (E.partialUpdate S fields row).1 = .error err →
      (E.partialUpdate S fields row).2 = row) ∧
    ((E.partialUpdate S fields row).1 = .ok none → (E.partialUpdate S fields row).2 = row) ∧
    ∀ saved, (E.partialUpdate S fields row).1 = .ok (some saved) →
      E.fetch (E.partialUpdate S fields row).2 = .ok saved ∧
      (E.PatchEffect fields row (E.partialUpdate S fields row).2 ↔ E.Takes fields row) := by
  have hunit := atomically_eq S.commitRefused row (E.patchWork S fields row).1
    (E.patchWork S fields row).2
  have hupdate : E.partialUpdate S fields row = atomically S.commitRefused row
    ((E.patchWork S fields row).1, (E.patchWork S fields row).2) := rfl
  cases hwork : (E.patchWork S fields row).2 with
  | error err =>
    rw [hunit.1 err hwork] at hupdate
    rw [hupdate]
    exact ⟨fun _ _ => rfl, fun _ => rfl, fun saved h => by cases h⟩
  | ok result =>
    have hdone := hunit.2 result hwork
    rw [← hupdate] at hdone
    cases hrefused : S.commitRefused with
    | true =>
      rw [hrefused, if_pos rfl] at hdone
      rw [hdone]
      exact ⟨fun _ _ => rfl, fun _ => rfl, fun saved h => by cases h⟩
    | false =>
      rw [hrefused, if_neg Bool.false_ne_true] at hdone
      rw [hdone]
      rcases E.patchWork_ok hkeys hwork with
        ⟨rfl, hwrites⟩ | ⟨saved, stored, rfl, hwrites, hpatched, hfetch⟩
      · rw [hwrites]
        exact ⟨fun _ _ => rfl, fun _ => rfl, fun saved h => by cases h⟩
      · rw [hwrites]
        refine ⟨fun err h => (by cases h), fun h => (by cases h), fun saved' h => ?_⟩
        obtain rfl := Option.some.inj (Except.ok.inj h)
        exact ⟨hfetch, SerdeEntity.effect_iff_takes hpatched⟩

/-! ### A note that is taken off -/

/-- A widget: a key, a name, and a note that is left out of the JSON form when there is none. -/
def widgets : SerdeEntity Value where
  columns := ["id", "name", "note"]
  writeProtectedFields := []
  stateFields := []
  guard _ := ⟨[], []⟩
  populate _ v := v
  id_not_state := List.not_mem_nil
  encode c v := if c = "note" ∧ v = .null then none else some v
  decode c v :=
    match v with
    | some v => .ok v
    | none => if c = "note" then .ok .null else .error ⟨[], "missing field `" ++ c ++ "`"⟩
  fromColumn _ v := .ok v
  references := []

/-- A stored widget. -/
def widget (note : Value) : Row
  | "id" => .num (.int 1)
  | "name" => .str "bolt"
  | "note" => note
  | _ => .null

theorem widgets_lossless : widgets.Lossless := by
  constructor
  case decodes =>
    intro c v
    change widgets.decode c (if c = "note" ∧ v = .null then none else some v) = .ok v
    split
    · rename_i hnote
      rw [hnote.1, hnote.2]
      rfl
    · rfl
  case stores =>
    intro c w y hy
    change (if c = "note" ∧ w = .null then none else some w) = some y at hy
    split at hy
    · cases hy
    · rw [Option.some.inj hy]
      rfl

theorem partial_update_effect_rename :
    ([("name", Value.str "nut")].map (·.1)).Nodup ∧
      ∃ saved, (widgets.partialUpdate {} [("name", .str "nut")] (widget (.str "old"))).1 =
          .ok (some saved) ∧
        widgets.PatchEffect [("name", .str "nut")] (widget (.str "old"))
          (widgets.partialUpdate {} [("name", .str "nut")] (widget (.str "old"))).2 := by
  have hkeys : ([("name", Value.str "nut")].map (·.1)).Nodup := List.nodup_singleton _
  have htakes : widgets.Takes [("name", .str "nut")] (widget (.str "old")) := by
    rw [widgets_lossless.takes_iff]
    intro c hc x hx v w _ hw hnone
    have hname : c = "name" := by
      by_contra hne
      have hnot : fieldValue [("name", Value.str "nut")] c = none := by
        rw [fieldValue_eq, List.find?_cons, beq_false_of_ne (Ne.symm hne)]
        rfl
      rw [hx] at hnot
      cases hnot
    subst hname
    cases hnone
  exact ⟨hkeys, _, rfl,
    ((partial_update_effect widgets {} _ hkeys (widget (.str "old"))).2.2 _ rfl).2.mpr htakes⟩

/-- Patching the note to null answers the widget, and the note is still there. -/
theorem null_patch_lost :
    ¬ ∀ (E : SerdeEntity Value) (S : PatchService Value) (fields : List (String × Value))
        (row : Row) (saved : Entity Value), (fields.map (·.1)).Nodup →
        (E.partialUpdate S fields row).1 = .ok (some saved) →
          E.PatchEffect fields row (E.partialUpdate S fields row).2 := by
  intro h
  have heffect := h widgets {} [("note", .null)] (widget (.str "old")) _
    (List.nodup_singleton _) rfl
  obtain ⟨w, hw, hread⟩ := heffect.patched "note" (by decide) .null rfl
  have hnull : w = .null := (Except.ok.inj hw).symm
  subst hnull
  have hold : widgets.fromColumn "note" ((widgets.partialUpdate {} [("note", .null)]
      (widget (.str "old"))).2 "note") = .ok (.str "old") := rfl
  rw [hold] at hread
  cases hread

end Backbone.Core
