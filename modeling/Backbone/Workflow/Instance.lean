import Mathlib.Data.List.Dedup
import Backbone.Workflow.Spec

/-!
# An instance as stored

Reference: `backbone-core/src/workflow/engine.rs` (`InstanceRow`, `StepRow`, `lock`, `completed`,
`next_seq`, `log_step`, `advance`) and `backbone-core/src/workflow/schema.rs`.

`Instance` is everything the database holds for one instance: its row of `bb_workflow_instances`, its
rows of `bb_workflow_steps` in the order they were committed, and what its actions did (the
definition's own writes and the staged outbox rows), which live in the same transactions.

Each `UPDATE` of the engine is one definition here, with exactly the columns it sets.
-/

namespace Backbone.Workflow

variable {log : List StepRow} {step : String} {outcome : StepOutcome}

/-- A `uuid` column. -/
abbrev Uuid := ℕ

/-- The statuses an instance moves through (`schema::STATUSES`). -/
inductive Status where
  | running | waiting | completed | failed | expired | compensating | compensated | cancelled
deriving DecidableEq, Repr

/-- What the step log says of a step. -/
inductive StepOutcome where
  | ok | skipped | waiting | resumed | timedOut | terminal | failed | expired | cancelled
  | compensated | compensationFailed
deriving DecidableEq, Repr

/-- A row of `bb_workflow_instances`. -/
structure InstanceRow where
  id : Uuid
  workflow : String
  version : ℤ
  companyId : Uuid
  orgUnitId : Option Uuid
  status : Status
  currentStep : Option String
  context : Value
  triggerEventId : Uuid
  correlationId : Option String
  deadlineAt : Option Time
  waitEvent : Option String
  waitKey : Option String
  waitDueAt : Option Time
  attempts : ℤ
  lastError : Option String
  createdAt : Time
  updatedAt : Time

/-- `InstanceRow::is_final`. -/
def InstanceRow.isFinal (r : InstanceRow) : Bool :=
  match r.status with
  | .completed | .failed | .expired | .compensated | .cancelled => true
  | _ => false

/-- A row of `bb_workflow_steps`. -/
structure StepRow where
  seq : ℕ
  step : String
  outcome : StepOutcome
  error : Option String
deriving DecidableEq, Repr

/-- The request a notification action stages. -/
structure NotificationRequested where
  channel : String
  template : Option String
  body : Option String
  recipients : Value
  data : Value
  trigger : String

/-- An outbox row an instance stages. -/
inductive Staged where
  | event (event : String) (data : Value)
  | notification (request : NotificationRequested)

/-- What performing an action did, inside the transaction of its step. -/
inductive Effect where
  | audit (params : Value)
  | staged (record : Staged)
  | performed (call : Call)

/-- One execution of an action: the step (or `compensate:<name>`) that asked, whether it was a
compensation step, and what it did. -/
structure Execution where
  step : String
  compensates : Bool
  effect : Effect

/-- One instance: its row, its step log in commit order, and what its actions and terminal steps
left in the database. -/
structure Instance where
  row : InstanceRow
  log : List StepRow
  executions : List Execution
  emitted : List Staged

/-! ## Reading the log -/

/-- The outcomes `steps.<name>.completed` counts. -/
def StepOutcome.completes : StepOutcome → Bool
  | .ok | .resumed | .timedOut => true
  | _ => false

/-- `SELECT DISTINCT step ... WHERE outcome IN ('ok', 'resumed', 'timed_out')`. -/
def completed (log : List StepRow) : List String :=
  ((log.filter (·.outcome.completes)).map (·.step)).dedup

/-- `SELECT COALESCE(MAX(seq), 0) + 1`. -/
def nextSeq (log : List StepRow) : ℕ := (log.map (·.seq)).foldr max 0 + 1

/-- Whether the log has a row of `step` with `outcome`. -/
def hasRow (log : List StepRow) (step : String) (outcome : StepOutcome) : Bool :=
  log.any fun r => r.step == step && r.outcome == outcome

theorem hasRow_iff :
    hasRow log step outcome = true ↔ ∃ r ∈ log, r.step = step ∧ r.outcome = outcome := by
  simp [hasRow]

theorem hasRow_append (r : StepRow)
    (h : hasRow log step outcome = true) : hasRow (log ++ [r]) step outcome = true := by
  rw [hasRow_iff] at h ⊢
  obtain ⟨q, hq, hs⟩ := h
  exact ⟨q, List.mem_append_left _ hq, hs⟩

/-- A row whose outcome completes nothing leaves the completed steps alone. -/
theorem completed_append {r : StepRow} (h : r.outcome.completes = false) :
    completed (log ++ [r]) = completed log := by
  simp [completed, List.filter_append, h]

namespace Instance

/-! ## The statements -/

/-- `log_step`: one row of the step log. -/
def logStep (w : Instance) (seq : ℕ) (step : String) (outcome : StepOutcome)
    (error : Option String) : Instance :=
  { w with log := w.log ++ [⟨seq, step, outcome, error⟩] }

/-- What an action did, kept when its transaction commits. -/
def execute (w : Instance) (x : Execution) : Instance :=
  { w with executions := w.executions ++ [x] }

/-- `advance`: on to `next` with `context`; the status is not touched. -/
def advance (w : Instance) (next : String) (context : Value) (now : Time) : Instance :=
  { w with row := { w.row with
      currentStep := some next, context, attempts := 0, lastError := none,
      waitEvent := none, waitKey := none, waitDueAt := none, updatedAt := now } }

/-- The update of a wait step: the instance sits in it. -/
def enterWait (w : Instance) (event key : Option String) (due : Option Time) (now : Time) :
    Instance :=
  { w with row := { w.row with
      status := .waiting, waitEvent := event, waitKey := key, waitDueAt := due,
      attempts := 0, lastError := none, updatedAt := now } }

/-- The update of a terminal step. -/
def finish (w : Instance) (status : Status) (step : String) (error : Option String)
    (context : Value) (now : Time) : Instance :=
  { w with row := { w.row with
      status, currentStep := some step, waitEvent := none, waitKey := none, waitDueAt := none,
      lastError := error.or w.row.lastError, context, updatedAt := now } }

/-- The update of `leave_wait`: running on the next step. -/
def leave (w : Instance) (next : String) (context : Value) (now : Time) : Instance :=
  { w with row := { w.row with
      status := .running, currentStep := some next, context, waitEvent := none, waitKey := none,
      waitDueAt := none, attempts := 0, lastError := none, updatedAt := now } }

/-- A failed step that runs again at `due`. -/
def retryAt (w : Instance) (attempts : ℤ) (error : String) (due now : Time) : Instance :=
  { w with row := { w.row with
      attempts, lastError := some error, waitDueAt := some due, updatedAt := now } }

/-- A failure with nowhere to go. -/
def giveUp (w : Instance) (status : Status) (attempts : ℤ) (error : String) (now : Time) :
    Instance :=
  { w with row := { w.row with
      status, attempts, lastError := some error, waitEvent := none, waitKey := none,
      waitDueAt := none, updatedAt := now } }

/-- A waiting instance past its deadline. -/
def expire (w : Instance) (now : Time) : Instance :=
  { w with row := { w.row with
      status := .expired, waitEvent := none, waitKey := none, waitDueAt := none,
      lastError := some "the instance passed its deadline", updatedAt := now } }

/-- The sweep takes a running instance: its backoff is over, or nobody drives it. -/
def takeRunning (w : Instance) (now : Time) : Instance :=
  { w with row := { w.row with waitDueAt := none, updatedAt := now } }

/-- The sweep takes a compensating instance. -/
def touch (w : Instance) (now : Time) : Instance :=
  { w with row := { w.row with updatedAt := now } }

/-- The final write of a compensation run. -/
def close (w : Instance) (status : Status) (error : Option String) (now : Time) : Instance :=
  { w with row := { w.row with
      status, lastError := error.or w.row.lastError, updatedAt := now } }

/-- The update of `cancel`. -/
def markCancelled (w : Instance) (now : Time) : Instance :=
  { w with row := { w.row with
      status := .cancelled, waitEvent := none, waitKey := none, waitDueAt := none,
      updatedAt := now } }

end Instance

end Backbone.Workflow
