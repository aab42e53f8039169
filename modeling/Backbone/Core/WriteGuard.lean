import Backbone.Lib.Except
import Backbone.Orm.RowUpdate

/-!
# The write guard over the committed history of a row

A generic update reads the row without a lock, asks the guard about the row it read and the row it
would store, and then runs one `UPDATE` of the columns that differ. The `UPDATE` lands on whatever is
committed by then, so what the guard was asked is what the history shows only while nobody else
wrote in between.

Each transaction has one `UPDATE` of the row and holds the row's lock from it to the commit, so the
two are one step here.

Reference: `backbone-core/src/service.rs` (`update`, `partial_update`, `consult`,
`refuse_protected_changes`), `backbone-core/src/write_guard.rs` and
`backbone-orm/src/generic_repository.rs` (`update_changed`).
-/

namespace Backbone.Core

open Workflow (Value)
open Orm (Row isDeleted updateChanged changedFields newValue)

/-! ## Guards -/

/-- `WriteKind`. -/
inductive WriteKind where
  | create | update | delete | restore | hardDelete
deriving DecidableEq, Repr

/-- `Violation`, without its parameters. -/
structure Violation where
  path : String
  code : String
  message : String
deriving DecidableEq, Repr

/-- `WriteCtx`: one write, as the guard sees it. -/
structure WriteCtx where
  kind : WriteKind
  before : Option Value
  after : Option Value
  actor : Option String
  time : ℤ
  /-- The state-machine verb the write performs, inside `as_transition`. -/
  transition : Option String

/-- `GuardOutcome`. -/
structure GuardOutcome where
  refuse : List Violation
  shadow : List Violation

/-- `WriteGuard::check`. -/
abbrev WriteGuard := WriteCtx → GuardOutcome

/-- An entity with its table: its fields, the fields generic writes may not change, its state
fields, its guard, and what the table makes of a JSON value in a column. -/
structure EntityType where
  columns : List String
  writeProtectedFields : List String
  stateFields : List String
  guard : WriteGuard
  populate : String → Value → Value
  /-- The key of a row is no state it moves through. -/
  id_not_state : "id" ∉ stateFields

namespace EntityType

variable (E : EntityType)

/-- The JSON form of an entity with the given field values. -/
def toJson (values : Row) : Value := .obj (E.columns.map fun c => (c, values c))

/-- `ALWAYS_WRITE_PROTECTED`. -/
def alwaysWriteProtected : List String := ["id", "metadata"]

/-- The refusal of a change to a protected field. -/
def fieldNotWritable (key : String) : Violation where
  path := key
  code := "field_not_writable"
  message := "field_not_writable: `" ++ key ++ "` cannot be changed by a generic write; " ++
    "it changes only through the operation that owns it"

/-- `refuse_protected_changes`: inside a transition the state fields are let through. -/
def refuseProtectedChanges (transition : Option String) (before after : Value) :
    Except (List Violation) Unit :=
  let refused := (((alwaysWriteProtected ++ E.writeProtectedFields).filter fun key =>
      !(transition.isSome && E.stateFields.contains key)).filter fun key =>
      before.get? key ≠ after.get? key).map fieldNotWritable
  if refused.isEmpty then .ok () else .error refused

/-- `consult`. -/
def consult (ctx : WriteCtx) : Except (List Violation) Unit :=
  let outcome := E.guard ctx
  if outcome.refuse.isEmpty then .ok () else .error outcome.refuse

/-- The guard lets a write through. -/
def Allows (ctx : WriteCtx) : Prop := (E.guard ctx).refuse = []

end EntityType

/-! ## Concurrent writers -/

/-- A write that has passed its checks: the row as read, the row to store, and who writes. -/
structure Pending where
  before : Row
  after : Row
  actor : Option String
  time : ℤ
  transition : Option String

/-- The question a write puts to the guard, for a pair of rows. -/
def Pending.ask (E : EntityType) (p : Pending) (before after : Row) : WriteCtx where
  kind := .update
  before := some (E.toJson before)
  after := some (E.toJson after)
  actor := p.actor
  time := p.time
  transition := p.transition

/-- The stored row, the writers between their read and their `UPDATE`, and each pair of consecutive
committed versions, as its writer would have put it to the guard. -/
structure Writers where
  row : Row
  pending : ℕ → Option Pending
  log : List WriteCtx

/-- The start: one version, no writer. -/
def Writers.start (row : Row) : Writers := ⟨row, fun _ => none, []⟩

/-- A step of a writer: it reads the row, makes of it the row it wants and has it checked, or it runs
its `UPDATE` and commits. -/
inductive WriterAct where
  | check (writer : ℕ) (after : Row) (actor : Option String) (time : ℤ) (transition : Option String)
  | save (writer : ℕ)

/-- The checks of `update` and `partial_update` on the row as read. -/
def checked (E : EntityType) (p : Pending) : Except (List Violation) Unit := do
  E.refuseProtectedChanges p.transition (E.toJson p.before) (E.toJson p.after)
  E.consult (p.ask E p.before p.after)

/-- The pairs a save adds to the history: none when it changes no field or finds no live row. -/
def saved (E : EntityType) (p : Pending) (row row' : Row) (answer : Option Row) : List WriteCtx :=
  if answer.isSome ∧ changedFields (E.toJson p.before, E.toJson p.after) ≠ [] then
    [p.ask E row row']
  else []

def Writers.step (E : EntityType) (s : Writers) : WriterAct → Writers
  | .check writer after actor time transition =>
    let p : Pending := ⟨s.row, after, actor, time, transition⟩
    match if isDeleted s.row then none else some (checked E p) with
    | some (.ok ()) => { s with pending := Function.update s.pending writer (some p) }
    | _ => { s with pending := Function.update s.pending writer none }
  | .save writer =>
    match s.pending writer with
    | none => s
    | some p =>
      match updateChanged E.populate (E.toJson p.before) (E.toJson p.after) s.row with
      | .error _ => { s with pending := Function.update s.pending writer none }
      | .ok (row, answer) =>
        { row, pending := Function.update s.pending writer none,
          log := s.log ++ saved E p s.row row answer }

/-! ## What is stored when nobody wrote in between -/

section

variable {E : EntityType} {s : Writers} {row : Row} {p : Pending}

theorem toJson_get? (values : Row) (c : String) :
    (E.toJson values).get? c = if c ∈ E.columns then some (values c) else none := by
  unfold EntityType.toJson Value.get?
  induction E.columns with
  | nil => rfl
  | cons d columns ih =>
    by_cases hd : d = c
    · simp [hd]
    · simpa [hd, Ne.symm hd] using ih

theorem toJson_congr {v w : Row} : E.toJson v = E.toJson w ↔ ∀ c ∈ E.columns, v c = w c := by
  simp [EntityType.toJson]

/-- A field is changed exactly when its value differs and it is not `id`. -/
theorem mem_changedFields {v w : Row} {c : String} :
    c ∈ changedFields (E.toJson v, E.toJson w) ↔ c ∈ E.columns ∧ c ≠ "id" ∧ v c ≠ w c := by
  have heq : changedFields (E.toJson v, E.toJson w) =
      Orm.differingFields (E.columns.map fun c => (c, v c)) (E.columns.map fun c => (c, w c)) := rfl
  have hget (c : String) : Orm.fieldValue (E.columns.map fun c => (c, v c)) c =
      if c ∈ E.columns then some (v c) else none := toJson_get? v c
  simp only [heq, Orm.differingFields, List.mem_map, List.mem_filter, hget, decide_eq_true_eq]
  constructor
  · rintro ⟨f, ⟨⟨d, hd, rfl⟩, hid, hne⟩, rfl⟩
    exact ⟨hd, hid, by simpa [hd] using hne⟩
  · rintro ⟨hc, hid, hne⟩
    exact ⟨(c, w c), ⟨⟨c, hc, rfl⟩, hid, by simpa [hc] using hne⟩, rfl⟩

/-- A save over the row that was read stores the row that was checked. -/
theorem toJson_saved {before after : Row} (hrow : E.toJson row = E.toJson before)
    (hid : "id" ∈ E.columns → before "id" = after "id")
    (hstored : ∀ c ∈ changedFields (E.toJson before, E.toJson after),
      E.populate c (after c) = after c) {row' : Row}
    (hrow' : ∀ c, row' c = if c ∈ changedFields (E.toJson before, E.toJson after) then
      E.populate c (newValue (E.toJson before, E.toJson after) c) else row c) :
    E.toJson row' = E.toJson after := by
  rw [toJson_congr] at hrow ⊢
  intro c hc
  rw [hrow' c]
  split
  · rename_i hchanged
    simp only [newValue, toJson_get?, hc, ↓reduceIte, Option.getD_some]
    exact hstored c hchanged
  · rename_i hsame
    rw [mem_changedFields] at hsame
    rw [hrow c hc]
    by_contra hne
    by_cases hcid : c = "id"
    · exact hne (hcid ▸ hid (hcid ▸ hc))
    · exact hsame ⟨hc, hcid, hne⟩

/-- What a write that passed its checks has been allowed. -/
structure Pending.Passed (E : EntityType) (p : Pending) : Prop where
  id_eq : "id" ∈ E.columns → p.before "id" = p.after "id"
  allowed : E.Allows (p.ask E p.before p.after)

theorem checked_ok (h : checked E p = .ok ()) : p.Passed E := by
  unfold checked at h
  obtain ⟨_, hprotected, hconsult⟩ := bind_eq_ok.mp h
  constructor
  · intro hcol
    simp only [EntityType.refuseProtectedChanges] at hprotected
    split at hprotected
    · rename_i hnone
      have hid : "id" ∈ (EntityType.alwaysWriteProtected ++ E.writeProtectedFields).filter fun key =>
          !(p.transition.isSome && E.stateFields.contains key) := by
        simp [EntityType.alwaysWriteProtected, E.id_not_state]
      by_contra hne
      have hmem : "id" ∈ ((EntityType.alwaysWriteProtected ++ E.writeProtectedFields).filter fun key =>
          !(p.transition.isSome && E.stateFields.contains key)).filter fun key =>
          (E.toJson p.before).get? key ≠ (E.toJson p.after).get? key := by
        rw [List.mem_filter]
        exact ⟨hid, by simpa [toJson_get?, hcol] using hne⟩
      rw [List.isEmpty_iff, List.map_eq_nil_iff] at hnone
      rw [hnone] at hmem
      cases hmem
    · cases hprotected
  · simp only [EntityType.consult] at hconsult
    split at hconsult
    · rename_i hrefuse
      exact List.isEmpty_iff.mp hrefuse
    · cases hconsult

/-! ## The committed history -/

/-- The steps at which the history shows what the guard was asked: a save finds the row its writer
read, and what it writes is stored as written. -/
def Timely (E : EntityType) (s : Writers) : WriterAct → Prop
  | .check .. => True
  | .save writer => ∀ p ∈ s.pending writer, E.toJson s.row = E.toJson p.before ∧
      ∀ c ∈ changedFields (E.toJson p.before, E.toJson p.after), E.populate c (p.after c) = p.after c

/-- Every write under way was allowed, and so was every pair of the history. -/
structure Writers.Guarded (E : EntityType) (s : Writers) : Prop where
  pending : ∀ writer, ∀ p ∈ s.pending writer, p.Passed E
  log : ∀ ctx ∈ s.log, E.Allows ctx

theorem Writers.guarded_start (row : Row) : (Writers.start row).Guarded E :=
  ⟨by simp [Writers.start], by simp [Writers.start]⟩

/-- Writers come and go without harm to the others. -/
theorem Writers.Guarded.update_pending (h : s.Guarded E) (writer : ℕ)
    {p : Option Pending} (hp : ∀ q ∈ p, q.Passed E) :
    ∀ w, ∀ q ∈ Function.update s.pending writer p w, q.Passed E := by
  intro w q hq
  by_cases hw : w = writer
  · subst hw
    rw [Function.update_self] at hq
    exact hp q hq
  · rw [Function.update_of_ne hw] at hq
    exact h.pending w q hq

/-- What a save appends to the history is what its writer asked, when nobody wrote in between. -/
theorem allows_saved {answer : Option Row}
    (hp : p.Passed E) (hrow : E.toJson s.row = E.toJson p.before)
    (hstored : ∀ c ∈ changedFields (E.toJson p.before, E.toJson p.after),
      E.populate c (p.after c) = p.after c)
    (hupdate : updateChanged E.populate (E.toJson p.before) (E.toJson p.after) s.row =
      .ok (row, answer)) : ∀ ctx ∈ saved E p s.row row answer, E.Allows ctx := by
  intro ctx hctx
  unfold saved at hctx
  split at hctx
  · rename_i hsome
    rw [List.mem_singleton] at hctx
    obtain ⟨stored, hstoredrow⟩ := Option.isSome_iff_exists.mp hsome.1
    rcases @Orm.step_update_cases E.populate (E.toJson p.before) (E.toJson p.after) s.row with
      ⟨hnone, -⟩ | ⟨-, -, hstep⟩
    · simp [Orm.RowAct.committed, hupdate, hstoredrow] at hnone
    · have hafter : E.toJson row = E.toJson p.after := by
        refine toJson_saved hrow hp.id_eq hstored fun c => ?_
        have := hstep c
        simpa [Orm.RowAct.step, hupdate] using this
      have hask : p.ask E s.row row = p.ask E p.before p.after := by
        simp [Pending.ask, hrow, hafter]
      rw [hctx, hask]
      exact hp.allowed
  · cases hctx

theorem Writers.Guarded.step (h : s.Guarded E) {a : WriterAct} (ha : Timely E s a) :
    (s.step E a).Guarded E := by
  cases a with
  | check writer after actor time transition =>
    simp only [Writers.step]
    split
    · rename_i hok
      refine ⟨h.update_pending writer fun q hq => ?_, h.log⟩
      cases hq
      split at hok
      · cases hok
      · exact checked_ok (Option.some.inj hok)
    · exact ⟨h.update_pending writer (by simp), h.log⟩
  | save writer =>
    simp only [Writers.step]
    split
    · exact h
    · rename_i p hp
      obtain ⟨hrow, hstored⟩ := ha p hp
      split
      · exact ⟨h.update_pending writer (by simp), h.log⟩
      · rename_i row answer hupdate
        refine ⟨h.update_pending writer (by simp), fun ctx hctx => ?_⟩
        rcases List.mem_append.mp hctx with hold | hnew
        · exact h.log ctx hold
        · exact allows_saved (h.pending writer p hp) hrow hstored hupdate ctx hnew

end

/-- In every interleaving of generic updates in which each save finds the row its writer read and
stores what it writes, every pair of consecutive committed versions is one the guard allows. -/
theorem committed_pairs_allowed (E : EntityType) (row : Row) (acts : List WriterAct)
    (h : Machine.Along (Writers.step E) (Timely E) (.start row) acts) :
    ∀ ctx ∈ (Machine.run (Writers.step E) (.start row) acts).log, E.Allows ctx :=
  (Machine.invariant_along (Writers.step E) (fun _ _ hs ha => hs.step ha)
    (Writers.guarded_start row) h).log

/-! ### Two verbs on one draft -/

/-- The moves of a document: a draft is posted or cancelled. -/
def documentMoves : WriteGuard := fun ctx =>
  let status (v : Option Value) : Option Value := v.bind (·.get? "status")
  if status ctx.before = status ctx.after ∨ status ctx.before = some (.str "draft") then ⟨[], []⟩
  else ⟨[⟨"status", "invalid_transition", "no such transition"⟩], []⟩

def documents : EntityType where
  columns := ["id", "status"]
  writeProtectedFields := ["status"]
  stateFields := ["status"]
  guard := documentMoves
  populate _ v := v
  id_not_state := by decide

/-- A document with a status. -/
def document (status : String) : Row
  | "id" => .num (.int 1)
  | "status" => .str status
  | _ => .null

/-- Posting and cancelling a draft at the same time. -/
def postAndCancel : List WriterAct :=
  [.check 0 (document "posted") none 0 (some "post"),
    .check 1 (document "cancelled") none 0 (some "cancel"), .save 0, .save 1]

/-- Both verbs are allowed on the draft, and the history moves a posted document to cancelled. -/
theorem stale_move_commits :
    ¬ ∀ (E : EntityType) (row : Row) (acts : List WriterAct),
        ∀ ctx ∈ (Machine.run (Writers.step E) (.start row) acts).log, E.Allows ctx := by
  intro h
  have hall := h documents (document "draft") postAndCancel
  have hpair := hall _ (List.getElem_mem (show 1 < (Machine.run (Writers.step documents)
    (.start (document "draft")) postAndCancel).log.length by decide +kernel))
  revert hpair
  unfold EntityType.Allows
  decide +kernel

/-- One verb alone is in the history as it was asked. -/
theorem committed_pairs_allowed_post :
    (Machine.run (Writers.step documents) (.start (document "draft"))
        [.check 0 (document "posted") none 0 (some "post"), .save 0]).log.length = 1 ∧
      ∀ ctx ∈ (Machine.run (Writers.step documents) (.start (document "draft"))
        [.check 0 (document "posted") none 0 (some "post"), .save 0]).log, documents.Allows ctx := by
  refine ⟨by decide +kernel, committed_pairs_allowed documents _ _ ⟨trivial, ?_, trivial⟩⟩
  intro p hp
  cases hp
  exact ⟨rfl, fun _ _ => rfl⟩

end Backbone.Core
