import Mathlib.Data.List.Sort
import Backbone.Lib.Run
import Backbone.Lib.Table
import Backbone.Workflow.Instance

/-!
# The outbox and its relay

Reference: `backbone-outbox/src/{record,outbox,relay,inbox}.rs`.

Producers stage events, any number of workers run `drain_once`, consumers claim events in the inbox
and operators re-emit what the transport gave up on. A worker holds no lock between its statements, so
each statement is a step: reading a batch, a consumer's transaction inside `publish`, the answer of
`publish`, and the `UPDATE` that marks the row. `step` interleaves them all.
-/

namespace Backbone.Outbox

open Workflow (Uuid Time Value)

/-- A serialized domain event staged in the outbox and carried to consumers. -/
structure OutboxRecord where
  id : Uuid
  eventType : String
  aggregateType : String
  aggregateId : String
  companyId : Uuid
  payload : Value
  occurredAt : Time
  correlationId : Option String := none
  causationId : Option String := none
  version : ℤ := 1
  orgUnitId : Option Uuid := none

/-- A row of `outbox_events`. -/
structure OutboxRow where
  record : OutboxRecord
  publishedAt : Option Time := none
  failedAt : Option Time := none
  failureReason : Option String := none

namespace OutboxRow

def isPublished (r : OutboxRow) : Bool := r.publishedAt.isSome

/-- The transport gave up on the record: what `dead_count` counts and `list_dead` lists. -/
def isDead (r : OutboxRow) : Bool := r.failedAt.isSome

/-- What `pending_count` counts, and what a worker reads. -/
def isPending (r : OutboxRow) : Bool := r.publishedAt.isNone && r.failedAt.isNone

/-- `SET published_at = now() WHERE published_at IS NULL`. -/
def markPublished (now : Time) (r : OutboxRow) : OutboxRow :=
  if r.publishedAt.isNone then { r with publishedAt := some now } else r

/-- `SET failed_at = now(), failure_reason = $2 WHERE published_at IS NULL`. -/
def markDead (now : Time) (reason : String) (r : OutboxRow) : OutboxRow :=
  if r.publishedAt.isNone then { r with failedAt := some now, failureReason := some reason } else r

/-- The `WHERE` of `reemit`. -/
def revivable (r : OutboxRow) : Bool := r.failedAt.isSome && r.publishedAt.isNone

/-- `SET failed_at = NULL, failure_reason = NULL WHERE failed_at IS NOT NULL AND published_at IS NULL`. -/
def revive (r : OutboxRow) : OutboxRow :=
  if r.revivable then { r with failedAt := none, failureReason := none } else r

end OutboxRow

/-- An `UPDATE .. WHERE id = $1 AND ..`. -/
def updateRow (id : Uuid) (f : OutboxRow → OutboxRow) (rows : List OutboxRow) : List OutboxRow :=
  rows.map fun r => if r.record.id == id then f r else r

/-- `stage`: idempotent on the event's id. The table fills the org unit from the writer's acting
unit. -/
def stage (actingUnit : Option Uuid) (rec : OutboxRecord) (rows : List OutboxRow) :
    Bool × List OutboxRow :=
  if rows.any (·.record.id == rec.id) then (false, rows)
  else (true, rows ++ [{ record := { rec with orgUnitId := actingUnit } }])

/-- `reemit`: whether a row was revived, and the table. -/
def reemit (id : Uuid) (rows : List OutboxRow) : Bool × List OutboxRow :=
  (rows.countP (fun r => r.record.id == id && r.revivable) == 1, updateRow id .revive rows)

/-- `reemit_all`: how many rows were revived, and the table. -/
def reemitAll (rows : List OutboxRow) : ℕ × List OutboxRow :=
  (rows.countP (·.revivable), rows.map .revive)

def deadCount (rows : List OutboxRow) : ℕ := rows.countP (·.isDead)

def pendingCount (rows : List OutboxRow) : ℕ := rows.countP (·.isPending)

/-- `ORDER BY t, id`. -/
def orderByTime {α : Type} (time : α → Time) (id : α → Uuid) (rows : List α) : List α :=
  rows.insertionSort fun a b => time a < time b ∨ time a = time b ∧ id a ≤ id b

/-- `list_dead`: oldest failure first. -/
def listDead (limit : ℕ) (rows : List OutboxRow) : List OutboxRow :=
  (orderByTime (·.failedAt.getD 0) (·.record.id) (rows.filter (·.isDead))).take limit

/-- The read of `drain_once`: the pending tail, oldest event first. -/
def readBatch (batch : ℕ) (rows : List OutboxRow) : List OutboxRecord :=
  (orderByTime (·.occurredAt) (·.id) ((rows.filter (·.isPending)).map (·.record))).take batch

/-- What `publish` answers. -/
inductive Verdict where
  | ok
  /-- `OutboxError::Publish`: the row stays for the next pass. -/
  | publish (reason : String)
  /-- `OutboxError::Exhausted`: the transport gave up. -/
  | exhausted (reason : String)
  /-- Any other error ends the pass. -/
  | other
deriving DecidableEq, Repr

/-- Where a worker is in `drain_once`. -/
inductive Worker where
  | idle
  /-- About to hand the first of `rest` to `publish`. -/
  | draining (rest : List OutboxRecord) (published : ℕ)
  /-- Inside `publish`, which covers the consumers `cover`; those of `todo` have not answered yet. -/
  | publishing (rec : OutboxRecord) (cover todo : List String) (rest : List OutboxRecord)
      (published : ℕ)
  /-- `publish` has answered; the row is to be marked. -/
  | answered (rec : OutboxRecord) (cover : List String) (verdict : Verdict)
      (rest : List OutboxRecord) (published : ℕ)
  /-- The pass is over and answered the number it published. -/
  | returned (published : ℕ)

/-- The tables `outbox_events` and `inbox_consumed`, the effects the consumers have applied, and the
workers. -/
structure State where
  rows : List OutboxRow
  inbox : List (String × Uuid)
  effects : List (String × Uuid)
  workers : ℕ → Worker

def State.init : State := ⟨[], [], [], fun _ => .idle⟩

inductive Act where
  | stage (actingUnit : Option Uuid) (rec : OutboxRecord)
  /-- A worker begins a pass. -/
  | read (p : ℕ) (batch : ℕ)
  /-- A worker hands its next record to `publish`, which covers the consumers `cover`. -/
  | offer (p : ℕ) (cover : List String)
  /-- The transaction of the next consumer inside `publish`: `inbox::once` and the effect. -/
  | handle (p : ℕ)
  | answer (p : ℕ) (verdict : Verdict)
  /-- The statement after the answer. -/
  | mark (p : ℕ) (now : Time)
  | reemit (id : Uuid)
  | reemitAll
  /-- The worker is gone, or its statement met a database error. -/
  | crash (p : ℕ)

def State.setWorker (s : State) (p : ℕ) (x : Worker) : State :=
  { s with workers := Function.update s.workers p x }

/-- `inbox::once` and the effect it guards, in one transaction. -/
def State.once (s : State) (consumer : String) (id : Uuid) : State :=
  if s.inbox.contains (consumer, id) then s
  else { s with inbox := s.inbox ++ [(consumer, id)], effects := s.effects ++ [(consumer, id)] }

/-- The end of a pass, when nothing is left to hand over. -/
def Worker.next (rest : List OutboxRecord) (published : ℕ) : Worker :=
  if rest.isEmpty then .returned published else .draining rest published

/-- What a worker does to the table after `publish` answered `verdict` for the record `id`. -/
def markRows (now : Time) (id : Uuid) (verdict : Verdict) (rows : List OutboxRow) : List OutboxRow :=
  match verdict with
  | .ok => updateRow id (.markPublished now) rows
  | .exhausted reason => updateRow id (.markDead now reason) rows
  | _ => rows

/-- How a worker goes on after it marked its row. -/
def Worker.afterMark (verdict : Verdict) (rest : List OutboxRecord) (published : ℕ) : Worker :=
  match verdict with
  | .ok => .next rest (published + 1)
  | .publish _ => .next rest published
  | .exhausted _ => .next rest published
  | .other => .idle

/-- One atomic step. -/
def State.step (s : State) : Act → State
  | .stage actingUnit rec => { s with rows := (stage actingUnit rec s.rows).2 }
  | .read p batch =>
    match s.workers p with
    | .idle | .returned _ => s.setWorker p (.next (readBatch batch s.rows) 0)
    | _ => s
  | .offer p cover =>
    match s.workers p with
    | .draining (rec :: rest) published => s.setWorker p (.publishing rec cover cover rest published)
    | _ => s
  | .handle p =>
    match s.workers p with
    | .publishing rec cover (c :: todo) rest published =>
      (s.once c rec.id).setWorker p (.publishing rec cover todo rest published)
    | _ => s
  | .answer p verdict =>
    match s.workers p with
    -- `publish` answers `Ok` only when every consumer it covers has committed.
    | .publishing rec cover todo rest published =>
      if verdict = .ok ∧ todo ≠ [] then s
      else s.setWorker p (.answered rec cover verdict rest published)
    | _ => s
  | .mark p now =>
    match s.workers p with
    | .answered rec _ verdict rest published =>
      { s with rows := markRows now rec.id verdict s.rows }.setWorker p
        (.afterMark verdict rest published)
    | _ => s
  | .reemit id => { s with rows := (reemit id s.rows).2 }
  | .reemitAll => { s with rows := (reemitAll s.rows).2 }
  | .crash p => s.setWorker p .idle

/-! ## What a step does to the rows -/

theorem markPublished_record (now : Time) (q : OutboxRow) :
    (q.markPublished now).record = q.record := by
  unfold OutboxRow.markPublished
  split <;> rfl

theorem markDead_record (now : Time) (reason : String) (q : OutboxRow) :
    (q.markDead now reason).record = q.record := by
  unfold OutboxRow.markDead
  split <;> rfl

theorem revive_record (q : OutboxRow) : q.revive.record = q.record := by
  unfold OutboxRow.revive
  split <;> rfl

/-- What one step does to the table. -/
inductive RowsStep (s : State) : Act → List OutboxRow → Prop where
  | same (a : Act) : RowsStep s a s.rows
  | staged {actingUnit : Option Uuid} {rec : OutboxRecord} (row : OutboxRow)
      (id : row.record.id = rec.id) (fresh : ∀ r ∈ s.rows, r.record.id ≠ rec.id)
      (pending : row.isPending = true) : RowsStep s (.stage actingUnit rec) (s.rows ++ [row])
  | published {p : ℕ} {now : Time} (rec : OutboxRecord) (cover : List String)
      (rest : List OutboxRecord) (n : ℕ) (worker : s.workers p = .answered rec cover .ok rest n) :
      RowsStep s (.mark p now) (updateRow rec.id (.markPublished now) s.rows)
  | died {p : ℕ} {now : Time} (id : Uuid) (reason : String) :
      RowsStep s (.mark p now) (updateRow id (.markDead now reason) s.rows)
  | revived {id : Uuid} : RowsStep s (.reemit id) (updateRow id .revive s.rows)
  | revivedAll : RowsStep s .reemitAll (s.rows.map .revive)

variable (s : State)

@[simp] theorem State.setWorker_rows (p : ℕ) (x : Worker) :
    (s.setWorker p x).rows = s.rows := rfl

@[simp] theorem State.once_rows (c : String) (id : Uuid) : (s.once c id).rows = s.rows := by
  unfold State.once
  split <;> rfl

theorem State.step_rows (a : Act) : RowsStep s a (s.step a).rows := by
  cases a with
  | stage actingUnit rec =>
    simp only [State.step, stage]
    split
    · exact .same _
    · rename_i hfresh
      exact .staged _ rfl (by simpa using hfresh) rfl
  | mark p now =>
    simp only [State.step]
    cases hp : s.workers p with
    | answered rec cover verdict rest n =>
      cases verdict with
      | ok => exact .published rec cover rest n hp
      | exhausted reason => exact .died _ reason
      | publish reason => exact .same _
      | other => exact .same _
    | _ => exact .same _
  | read p batch => simp only [State.step]; split <;> exact .same _
  | offer p cover => simp only [State.step]; split <;> exact .same _
  | handle p =>
    simp only [State.step]
    split
    · rw [State.setWorker_rows, State.once_rows]; exact .same _
    · exact .same _
  | answer p verdict =>
    simp only [State.step]
    split
    · split <;> exact .same _
    · exact .same _
  | reemit id => exact .revived
  | reemitAll => exact .revivedAll
  | crash p => exact .same _

end Backbone.Outbox
