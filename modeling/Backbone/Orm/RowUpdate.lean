import Backbone.Lib.Run
import Backbone.Workflow.Expr

/-!
# Updates of one row

A repository saves an entity by writing only the columns whose value differs between the row as it
was read and the row as it should be, in one statement that leaves a soft-deleted row alone. The
deletion mark is the `deleted_at` key of the `metadata` column.

An entity is the JSON object it serializes to, and a row gives each column its value; what
`jsonb_populate_record` makes of a JSON value in a column is a parameter.

Reference: `backbone-orm/src/repository.rs` (`update_statement`, `changed_columns`) and
`backbone-orm/src/generic_repository.rs` (`update_changed`, `soft_delete`, `restore`).
-/

namespace Backbone.Orm

open Workflow (Value)

/-! ## The statement of an update -/

/-- The fields of an entity that serializes to an object. -/
def entityFields : Value → Except String (List (String × Value))
  | .obj fields => .ok fields
  | _ => .error "Entity must serialize to a JSON object"

/-- The value of a field. -/
def fieldValue (fields : List (String × Value)) (key : String) : Option Value :=
  (Value.obj fields).get? key

/-- The fields whose value differs between two objects, in the order of the second. -/
def differingFields (before after : List (String × Value)) : List String :=
  (after.filter fun f => f.1 ≠ "id" ∧ fieldValue before f.1 ≠ some f.2).map (·.1)

/-- `changed_columns`. -/
def changedColumns (before after : Value) : Except String (List String) := do
  let before ← entityFields before
  let after ← entityFields after
  return differingFields before after

/-- `UpdateStatement`, without its text: the columns of the tuple assignment and the JSON object
they are taken from. -/
inductive UpdateStatement where
  /-- Nothing to write: re-read the row under the guard. -/
  | unchanged
  | update (columns : List String) (json : List (String × Value))

/-- The columns of an update: those of the entity but `id`, and only those of `only`, when given. -/
def updateColumns (fields : List (String × Value)) (only : Option (List String)) : List String :=
  ((fields.map (·.1)).filter (· ≠ "id")).filter fun k => only.all (·.contains k)

/-- `update_statement`. -/
def updateStatement (entity : Value) (only : Option (List String)) :
    Except String UpdateStatement := do
  let fields ← entityFields entity
  let columns := updateColumns fields only
  return if columns.isEmpty then .unchanged else .update columns fields

/-! ## Rows -/

/-- The columns of a stored row. -/
abbrev Row := String → Value

/-- `metadata->>'deleted_at' IS NOT NULL`. -/
def isDeleted (row : Row) : Bool := ((row "metadata").get? "deleted_at").any fun v => !v.isNull

/-- `jsonb_set(COALESCE(metadata, '{}'), '{deleted_at}', stamp)`. -/
def setDeletedAt (stamp : Value) : Value → Value
  | .null => .obj [("deleted_at", stamp)]
  | .obj fields => .obj (Value.insertField fields "deleted_at" stamp)
  | other => other

/-- `metadata - 'deleted_at'`. -/
def removeDeletedAt : Value → Value
  | .obj fields => .obj (fields.filter (·.1 ≠ "deleted_at"))
  | other => other

section

-- What `jsonb_populate_record` makes of a JSON value in a column of the table.
variable (populate : String → Value → Value)

/-- The tuple assignment of an update. -/
def assign (columns : List String) (json : List (String × Value)) (row : Row) : Row := fun c =>
  if c ∈ columns then populate c ((fieldValue json c).getD .null) else row c

/-- A statement on the row, under the not-deleted guard: the row after it, and what it answers. -/
def UpdateStatement.run (s : UpdateStatement) (row : Row) : Row × Option Row :=
  if isDeleted row then (row, none)
  else
    match s with
    | .unchanged => (row, some row)
    | .update columns json =>
      let row := assign populate columns json row
      (row, some row)

/-- `update_changed`. -/
def updateChanged (before after : Value) (row : Row) : Except String (Row × Option Row) := do
  let changed ← changedColumns before after
  let statement ← updateStatement after (some changed)
  return statement.run populate row

/-- `soft_delete`: whether a row was marked. -/
def softDelete (stamp : Value) (row : Row) : Row × Bool :=
  if isDeleted row then (row, false)
  else (Function.update row "metadata" (setDeletedAt stamp (row "metadata")), true)

/-- `restore`. -/
def restore (row : Row) : Row × Option Row :=
  if isDeleted row then
    let restored := Function.update row "metadata" (removeDeletedAt (row "metadata"))
    (restored, some restored)
  else (row, none)

/-! ## Concurrent statements -/

/-- One statement on the row. The pair of an update may be of any age. -/
inductive RowAct where
  | update (before after : Value)
  | softDelete (stamp : Value)
  | restore

/-- The row after a statement; an entity that is no object is refused before any statement. -/
def RowAct.step (row : Row) : RowAct → Row
  | .update before after =>
    match updateChanged populate before after row with
    | .ok (row, _) => row
    | .error _ => row
  | .softDelete stamp => (Orm.softDelete stamp row).1
  | .restore => (Orm.restore row).1

/-- The pair of an update that answered a row. -/
def RowAct.committed (row : Row) : RowAct → Option (Value × Value)
  | .update before after =>
    match updateChanged populate before after row with
    | .ok (_, some _) => some (before, after)
    | _ => none
  | _ => none

/-- The updates that committed along a run. -/
def committedUpdates : Row → List RowAct → List (Value × Value)
  | _, [] => []
  | row, a :: rest =>
    (a.committed populate row).toList ++ committedUpdates (a.step populate row) rest

end

/-! ## What an update writes -/

/-- The fields an update changes. -/
def changedFields (u : Value × Value) : List String :=
  match changedColumns u.1 u.2 with
  | .ok columns => columns
  | .error _ => []

/-- The new value an update has for a field. -/
def newValue (u : Value × Value) (c : String) : Value := (u.2.get? c).getD .null

section

variable {populate : String → Value → Value} {before after : List (String × Value)} {c : String}
  {row : Row}

theorem mem_differingFields
    (h : c ∈ differingFields before after) : c ∈ after.map (·.1) ∧ c ≠ "id" := by
  simp only [differingFields, List.mem_map, List.mem_filter, decide_eq_true_eq] at h
  obtain ⟨f, ⟨hf, hid, -⟩, rfl⟩ := h
  exact ⟨List.mem_map_of_mem hf, hid⟩

theorem mem_updateColumns :
    c ∈ updateColumns after (some (differingFields before after)) ↔
      c ∈ differingFields before after := by
  simp only [updateColumns, Option.all_some, List.mem_filter, List.contains_iff_mem,
    decide_eq_true_eq]
  exact ⟨fun h => h.2, fun h => ⟨mem_differingFields h, h⟩⟩

/-- An assignment depends on its columns only as a set. -/
theorem assign_congr {columns columns' : List String} (h : ∀ c, c ∈ columns ↔ c ∈ columns')
    (json : List (String × Value)) (row : Row) :
    assign populate columns json row = assign populate columns' json row := by
  funext c
  simp only [assign, h c]

/-- What an update does to the row: nothing to a soft-deleted one, and its own columns else. -/
theorem updateChanged_eq (before after : List (String × Value)) (row : Row) :
    updateChanged populate (.obj before) (.obj after) row =
      .ok (if isDeleted row then (row, none)
        else (assign populate (differingFields before after) after row,
          some (assign populate (differingFields before after) after row))) := by
  have hassign : assign populate (updateColumns after (some (differingFields before after))) after
      row = assign populate (differingFields before after) after row :=
    assign_congr (fun _ => mem_updateColumns) after row
  simp only [updateChanged, changedColumns, updateStatement, entityFields, bind, Except.bind, pure,
    Except.pure, UpdateStatement.run, Except.ok.injEq]
  by_cases hdel : isDeleted row
  · simp only [hdel, ↓reduceIte]
  · simp only [hdel, Bool.false_eq_true, ↓reduceIte]
    by_cases hempty : (updateColumns after (some (differingFields before after))).isEmpty
    · -- No column differs: the row is re-read.
      have hnil := List.isEmpty_iff.mp hempty
      have hnone : assign populate (differingFields before after) after row = row := by
        rw [← hassign, hnil]
        rfl
      simp only [hempty, ↓reduceIte, hnone]
    · simp only [hempty, Bool.false_eq_true, ↓reduceIte, hassign]

/-- An update of anything but objects is refused. -/
theorem updateChanged_cases (before after : Value) (row : Row) :
    (∃ e, updateChanged populate before after row = .error e) ∨
      ∃ b a, before = .obj b ∧ after = .obj a := by
  cases hb : entityFields before with
  | error e =>
    refine .inl ⟨e, ?_⟩
    simp only [updateChanged, changedColumns, hb]
    rfl
  | ok b =>
    cases ha : entityFields after with
    | error e =>
      refine .inl ⟨e, ?_⟩
      simp only [updateChanged, changedColumns, hb, ha]
      rfl
    | ok a =>
      obtain rfl : before = .obj b := by cases before <;> simp [entityFields] at hb; rw [hb]
      obtain rfl : after = .obj a := by cases after <;> simp [entityFields] at ha; rw [ha]
      exact .inr ⟨b, a, rfl, rfl⟩

/-- What an update does to the row, in terms of its fields. -/
theorem step_update_cases (before after : Value) (row : Row) :
    (RowAct.committed populate row (.update before after) = none ∧
      RowAct.step populate row (.update before after) = row) ∨
    (isDeleted row = false ∧
      RowAct.committed populate row (.update before after) = some (before, after) ∧
      ∀ c, RowAct.step populate row (.update before after) c =
        if c ∈ changedFields (before, after) then populate c (newValue (before, after) c)
        else row c) := by
  rcases @updateChanged_cases populate before after row with ⟨e, herr⟩ | ⟨b, a, rfl, rfl⟩
  · exact .inl ⟨by simp [RowAct.committed, herr], by simp [RowAct.step, herr]⟩
  · have heq := @updateChanged_eq populate b a row
    by_cases hdel : isDeleted row
    · rw [if_pos hdel] at heq
      exact .inl ⟨by simp [RowAct.committed, heq], by simp [RowAct.step, heq]⟩
    · rw [if_neg hdel] at heq
      refine .inr ⟨by simpa using hdel, by simp [RowAct.committed, heq], fun c => ?_⟩
      have hchanged : changedFields (.obj b, .obj a) = differingFields b a := rfl
      simp only [RowAct.step, heq, hchanged]
      rfl

/-- An update that finds the row soft-deleted answers no row. -/
theorem updateChanged_of_isDeleted {before after : Value} (hdel : isDeleted row)
    {answer : Row × Option Row} (h : updateChanged populate before after row = .ok answer) :
    answer = (row, none) := by
  rcases @updateChanged_cases populate before after row with ⟨e, herr⟩ | ⟨b, a, rfl, rfl⟩
  · rw [herr] at h
    cases h
  · rw [updateChanged_eq, if_pos hdel] at h
    injection h with h
    exact h.symm

/-! ## The columns of a run -/

section

variable {R : String → Value → Value → Prop} (hrefl : ∀ c v, R c v v)
  (htrans : ∀ c u v w, R c u v → R c v w → R c u w)

include hrefl htrans in
/-- A column that no committed update changes keeps its value, as far as `R` sees what the other
statements do. -/
theorem run_untouched {acts : List RowAct}
    (hother : ∀ a ∈ acts, (∀ before after, a ≠ .update before after) →
      ∀ row c, R c (a.step populate row c) (row c))
    {row : Row} {c : String} (h : ∀ u ∈ committedUpdates populate row acts, c ∉ changedFields u) :
    R c (Machine.run (RowAct.step populate) row acts c) (row c) := by
  induction acts generalizing row with
  | nil => exact hrefl c _
  | cons a acts ih =>
    have hrest : R c (Machine.run (RowAct.step populate) (a.step populate row) acts c)
        (a.step populate row c) :=
      ih (fun a' ha' => hother a' (List.mem_cons_of_mem _ ha'))
        (fun u hu => h u (List.mem_append_right _ hu))
    refine htrans c _ _ _ hrest ?_
    cases a with
    | update before after =>
      rcases @step_update_cases populate before after row with
        ⟨-, hstep⟩ | ⟨-, hcommit, hstep⟩
      · rw [hstep]
        exact hrefl c _
      · have hnot := h (before, after) (List.mem_append_left _ (by simp [hcommit]))
        rw [hstep c, if_neg hnot]
        exact hrefl c _
    | softDelete stamp => exact hother _ List.mem_cons_self (by simp) row c
    | restore => exact hother _ List.mem_cons_self (by simp) row c

include hrefl htrans in
/-- When committed updates change disjoint sets of fields, each one's values are in the row at the
end. -/
theorem run_written {acts : List RowAct}
    (hother : ∀ a ∈ acts, (∀ before after, a ≠ .update before after) →
      ∀ row c, R c (a.step populate row c) (row c))
    (hdisjoint : (committedUpdates populate row acts).Pairwise fun u v =>
      ∀ c ∈ changedFields u, c ∉ changedFields v)
    {u : Value × Value} (hu : u ∈ committedUpdates populate row acts)
    (hc : c ∈ changedFields u) :
    R c (Machine.run (RowAct.step populate) row acts c) (populate c (newValue u c)) := by
  induction acts generalizing row with
  | nil => cases hu
  | cons a acts ih =>
    have hother' := fun a' ha' => hother a' (List.mem_cons_of_mem _ ha')
    rw [committedUpdates, List.pairwise_append] at hdisjoint
    obtain ⟨-, hpair, hcross⟩ := hdisjoint
    rcases List.mem_append.mp hu with hnow | hlater
    · -- The update itself: what commits later changes other fields.
      have hrest : R c (Machine.run (RowAct.step populate) (a.step populate row) acts c)
          (a.step populate row c) :=
        run_untouched hrefl htrans hother' (fun v hv => hcross u hnow v hv c hc)
      refine htrans c _ _ _ hrest ?_
      cases a with
      | update before after =>
        rcases @step_update_cases populate before after row with
          ⟨hnone, -⟩ | ⟨-, hcommit, hstep⟩
        · simp [hnone] at hnow
        · obtain rfl : u = (before, after) := by simpa [hcommit, eq_comm] using hnow
          rw [hstep c, if_pos hc]
          exact hrefl c _
      | softDelete stamp => simp [RowAct.committed] at hnow
      | restore => simp [RowAct.committed] at hnow
    · exact ih hother' hpair hlater

end

/-! ## The deletion mark -/

/-- The metadata of a row apart from the deletion mark; no metadata reads as an empty object. -/
def content : Value → Value
  | .null => .obj []
  | v => removeDeletedAt v

/-- The same value of a column, for `metadata` apart from the deletion mark. -/
def SameContent (c : String) (v w : Value) : Prop :=
  if c = "metadata" then content v = content w else v = w

theorem filter_insertField (fields : List (String × Value)) (stamp : Value) :
    (Value.insertField fields "deleted_at" stamp).filter (·.1 ≠ "deleted_at") =
      fields.filter (·.1 ≠ "deleted_at") := by
  have hmap (l : List (String × Value)) :
      (l.map fun f => if f.1 == "deleted_at" then ("deleted_at", stamp) else f).filter
        (·.1 ≠ "deleted_at") = l.filter (·.1 ≠ "deleted_at") := by
    induction l with
    | nil => rfl
    | cons f l ih =>
      by_cases hf : f.1 = "deleted_at"
      · simpa [hf] using ih
      · simpa [hf] using ih
  unfold Value.insertField
  split
  · exact hmap fields
  · simp

theorem content_setDeletedAt (stamp v : Value) : content (setDeletedAt stamp v) = content v := by
  cases v with
  | null => simp [setDeletedAt, content, removeDeletedAt]
  | obj fields => simp only [setDeletedAt, content, removeDeletedAt, filter_insertField]
  | _ => rfl

theorem content_removeDeletedAt (v : Value) : content (removeDeletedAt v) = content v := by
  cases v with
  | obj fields => simp [content, removeDeletedAt, List.filter_filter]
  | _ => rfl

/-- Marking and unmarking a row changes nothing but the mark. -/
theorem sameContent_of_not_update {a : RowAct} (ha : ∀ before after, a ≠ .update before after)
    (row : Row) (c : String) : SameContent c (a.step populate row c) (row c) := by
  have hmeta {v : Value} (hv : content v = content (row "metadata")) :
      SameContent c (Function.update row "metadata" v c) (row c) := by
    by_cases hc : c = "metadata"
    · subst hc
      simpa [SameContent] using hv
    · simp [SameContent, hc]
  have hsame : SameContent c (row c) (row c) := by simp [SameContent]
  cases a with
  | update before after => exact absurd rfl (ha before after)
  | softDelete stamp =>
    simp only [RowAct.step, softDelete]
    split
    · exact hsame
    · exact hmeta (content_setDeletedAt _ _)
  | restore =>
    simp only [RowAct.step, restore]
    split
    · exact hmeta (content_removeDeletedAt _)
    · exact hsame

end

/-- For any interleaving of updates, soft deletes and restores on one row: when the committed updates
change pairwise disjoint sets of fields, the row at the end carries every one's new values and the
initial values elsewhere (the deletion mark apart, and without exception when the run has updates
only); and an update that finds the row soft-deleted changes nothing, answers no row, and so leaves
the mark. -/
theorem no_lost_update (populate : String → Value → Value) (row : Row) (acts : List RowAct)
    (hdisjoint : (committedUpdates populate row acts).Pairwise fun u v =>
      ∀ c ∈ changedFields u, c ∉ changedFields v) :
    let final := Machine.run (RowAct.step populate) row acts
    let ups := committedUpdates populate row acts
    (∀ u ∈ ups, ∀ c ∈ changedFields u, SameContent c (final c) (populate c (newValue u c))) ∧
    (∀ c, (∀ u ∈ ups, c ∉ changedFields u) → SameContent c (final c) (row c)) ∧
    ((∀ a ∈ acts, ∃ before after, a = .update before after) →
      (∀ u ∈ ups, ∀ c ∈ changedFields u, final c = populate c (newValue u c)) ∧
      ∀ c, (∀ u ∈ ups, c ∉ changedFields u) → final c = row c) ∧
    ∀ reached before after, isDeleted reached →
      (RowAct.step populate reached (.update before after) = reached ∧
        RowAct.committed populate reached (.update before after) = none) ∧
      ∀ answer, updateChanged populate before after reached = .ok answer →
        answer = (reached, none) := by
  intro final ups
  have hrefl (c : String) (v : Value) : SameContent c v v := by simp [SameContent]
  have htrans (c : String) (u v w : Value) (h : SameContent c u v) (h' : SameContent c v w) :
      SameContent c u w := by
    by_cases hc : c = "metadata"
    · simp only [SameContent, hc, ↓reduceIte] at h h' ⊢
      exact h.trans h'
    · simp only [SameContent, hc, ↓reduceIte] at h h' ⊢
      exact h.trans h'
  have hother (a : RowAct) (_ : a ∈ acts) (ha : ∀ before after, a ≠ .update before after) (row : Row)
      (c : String) : SameContent c (a.step populate row c) (row c) :=
    sameContent_of_not_update ha row c
  refine ⟨fun u hu c hc => run_written hrefl htrans hother hdisjoint hu hc,
    fun c hc => run_untouched hrefl htrans hother hc, fun hupdates => ?_, ?_⟩
  · -- Among updates alone nothing touches the mark.
    have hnone (a : RowAct) (ha : a ∈ acts) (hnot : ∀ before after, a ≠ .update before after)
        (row : Row) (c : String) : a.step populate row c = row c := by
      obtain ⟨before, after, heq⟩ := hupdates a ha
      exact absurd heq (hnot before after)
    exact ⟨fun u hu c hc => run_written (R := fun _ v w => v = w) (fun _ _ => rfl)
        (fun _ _ _ _ h h' => h.trans h') hnone hdisjoint hu hc,
      fun c hc => run_untouched (R := fun _ v w => v = w) (fun _ _ => rfl)
        (fun _ _ _ _ h h' => h.trans h') hnone hc⟩
  · intro reached before after hdel
    refine ⟨?_, fun answer hanswer => updateChanged_of_isDeleted hdel hanswer⟩
    rcases @step_update_cases populate before after reached with ⟨hnone, hstep⟩ | ⟨hlive, -, -⟩
    · exact ⟨hstep, hnone⟩
    · rw [hdel] at hlive
      cases hlive

/-- A ticket with a note and a status, as it is read and saved. -/
def ticket (notes status : String) : Value :=
  .obj [("id", .num (.int 1)), ("notes", .str notes), ("status", .str status),
    ("metadata", .obj [])]

/-- The stored ticket. -/
def ticketRow : Row
  | "id" => .num (.int 1)
  | "notes" => .str "first"
  | "status" => .str "draft"
  | "metadata" => .obj []
  | _ => .null

/-- A patch of the notes, a delete and a restore, and a move of the status, both from the first
read. -/
def ticketActs : List RowAct :=
  [.update (ticket "first" "draft") (ticket "edited" "draft"), .softDelete (.str "now"),
    .update (ticket "first" "draft") (ticket "late" "draft"), .restore,
    .update (ticket "first" "draft") (ticket "first" "posted")]

theorem no_lost_update_ticket :
    (committedUpdates (fun _ v => v) ticketRow ticketActs).length = 2 ∧
      SameContent "notes" (Machine.run (RowAct.step fun _ v => v) ticketRow ticketActs "notes")
        (.str "edited") ∧
      SameContent "status" (Machine.run (RowAct.step fun _ v => v) ticketRow ticketActs "status")
        (.str "posted") := by
  have h := no_lost_update (fun _ v => v) ticketRow ticketActs (by decide +kernel)
  exact ⟨by decide +kernel,
    h.1 (ticket "first" "draft", ticket "edited" "draft") (by decide +kernel) "notes"
      (by decide +kernel),
    h.1 (ticket "first" "draft", ticket "first" "posted") (by decide +kernel) "status"
      (by decide +kernel)⟩

end Backbone.Orm
