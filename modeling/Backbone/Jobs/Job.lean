import Backbone.Jobs.Cron

/-!
# Jobs

A job carries its schedule, its status and its counters. The status moves by seven methods, each of
which checks the status it moves from; `valid_transitions` is a table of its own. The methods allow more
than the table: `pause` any status that is not terminal, and `reset_for_retry` a completed job.

The counters are 32 bits wide and wrap. The retry policy is left out: a retry is delayed by floating
point numbers and by chance, and the delay is given with each retry. Of the timestamps, the two that
schedule a job are kept.

Reference: `backbone-jobs/src/job.rs` and `backbone-jobs/src/types.rs`.
-/

namespace Backbone.Jobs

open Text

inductive JobStatus where
  | scheduled
  | running
  | completed
  | failed
  | cancelled
  | paused
deriving DecidableEq, Repr

namespace JobStatus

/-- `Display for JobStatus`. -/
def text : JobStatus → String
  | .scheduled => "scheduled"
  | .running => "running"
  | .completed => "completed"
  | .failed => "failed"
  | .cancelled => "cancelled"
  | .paused => "paused"

/-- `JobStatus::valid_transitions`. -/
def validTransitions : JobStatus → List JobStatus
  | .scheduled => [.running, .cancelled, .paused]
  | .running => [.completed, .failed, .cancelled]
  | .failed => [.scheduled, .cancelled]
  | .paused => [.scheduled, .cancelled]
  | .completed | .cancelled => []

/-- `JobStatus::can_transition_to`. -/
def canTransitionTo (s target : JobStatus) : Bool := s.validTransitions.contains target

/-- `JobStatus::is_terminal`. -/
def isTerminal : JobStatus → Bool
  | .completed | .cancelled => true
  | _ => false

/-- The terminal statuses are those the table has no transition from. -/
theorem isTerminal_iff (s : JobStatus) : s.isTerminal = true ↔ ∀ t, s.canTransitionTo t = false := by
  constructor
  · intro h t
    cases s with
    | completed | cancelled => rfl
    | scheduled | running | failed | paused => cases h
  · intro h
    cases s with
    | completed | cancelled => rfl
    | scheduled => exact absurd (h .running) (by decide)
    | running => exact absurd (h .completed) (by decide)
    | failed | paused => exact absurd (h .scheduled) (by decide)

end JobStatus

inductive JobPriority where
  | low
  | normal
  | high
  | critical
deriving DecidableEq, Repr

/-- A job with a payload in `π`. -/
structure Job (π : Type) where
  id : String
  name : String
  cronExpression : String
  timezone : String
  queue : String
  payload : π
  status : JobStatus
  priority : JobPriority
  timeout : ℕ
  maxAttempts : UInt32
  metadata : List (String × String)
  lastRunTime : Option ℤ
  nextRunTime : Option ℤ
  runCount : UInt32
  successCount : UInt32
  failureCount : UInt32
deriving DecidableEq, Repr

namespace Job

variable {π : Type}

/-- `Job::new`. -/
def new (id name cronExpression queue : String) (payload : π) : Job π where
  id
  name
  cronExpression
  timezone := "UTC"
  queue
  payload
  status := .scheduled
  priority := .normal
  timeout := 300
  maxAttempts := 5
  metadata := []
  lastRunTime := none
  nextRunTime := none
  runCount := 0
  successCount := 0
  failureCount := 0

/-- `Job::is_scheduled`. -/
def isScheduled (j : Job π) : Bool := j.status == .scheduled

/-- `Job::can_retry`. -/
def canRetry (j : Job π) : Bool := j.status == .failed && j.failureCount < j.maxAttempts

/-- A method that moves the status from some of the statuses to one. -/
def moveTo (j : Job π) (allowed : Bool) (target : JobStatus) : Except JobError (Job π) :=
  if allowed then .ok { j with status := target }
  else .error (.invalidStatusTransition j.status.text target.text)

/-- `Job::mark_as_running`. -/
def markAsRunning (j : Job π) : Except JobError (Job π) :=
  j.moveTo (j.status == .scheduled) .running

/-- `Job::mark_as_completed`. -/
def markAsCompleted (j : Job π) (now : ℤ) : Except JobError (Job π) := do
  let j ← j.moveTo (j.status == .running) .completed
  .ok { j with
    lastRunTime := some now
    runCount := j.runCount + 1
    successCount := j.successCount + 1 }

/-- `Job::mark_as_failed`. -/
def markAsFailed (j : Job π) (now : ℤ) : Except JobError (Job π) := do
  let j ← j.moveTo (j.status == .running) .failed
  .ok { j with
    lastRunTime := some now
    runCount := j.runCount + 1
    failureCount := j.failureCount + 1 }

/-- `Job::reset_for_retry`. -/
def resetForRetry (j : Job π) : Except JobError (Job π) :=
  j.moveTo (j.status == .failed || j.status == .completed) .scheduled

/-- `Job::cancel`. -/
def cancel (j : Job π) : Except JobError (Job π) :=
  j.moveTo (!(j.status == .completed || j.status == .cancelled)) .cancelled

/-- `Job::pause`. -/
def pause (j : Job π) : Except JobError (Job π) :=
  j.moveTo (!(j.status == .completed || j.status == .cancelled)) .paused

/-- `Job::resume`. -/
def resume (j : Job π) : Except JobError (Job π) := j.moveTo (j.status == .paused) .scheduled

/-- `Job::validate`. -/
def validate (j : Job π) : Except JobError Unit :=
  if j.cronExpression.isEmpty then .error (.validation "Cron expression cannot be empty")
  else if (splitWhitespace j.cronExpression).length ≠ 5 then
    .error (.validation "Cron expression must have exactly 5 fields")
  else if j.queue.isEmpty then .error (.validation "Queue name cannot be empty")
  else if j.timeout = 0 then .error (.validation "Timeout must be greater than 0")
  else if j.maxAttempts = 0 then .error (.validation "Max attempts must be greater than 0")
  else .ok ()

/-! ## What the methods do -/

variable {j j' : Job π} {now : ℤ} {allowed : Bool} {target : JobStatus}

theorem moveTo_eq_ok :
    j.moveTo allowed target = .ok j' ↔ allowed = true ∧ j' = { j with status := target } := by
  unfold moveTo
  cases allowed
  · simp
  · simp [eq_comm]

/-- A move that is followed by an update of the job. -/
theorem moveTo_update_eq_ok {f : Job π → Job π} :
    (j.moveTo allowed target >>= fun k => .ok (f k)) = .ok j' ↔
      allowed = true ∧ j' = f { j with status := target } := by
  rw [bind_eq_ok]
  constructor
  · rintro ⟨k, hk, h⟩
    obtain ⟨hallowed, rfl⟩ := moveTo_eq_ok.mp hk
    exact ⟨hallowed, (Except.ok.inj h).symm⟩
  · rintro ⟨hallowed, rfl⟩
    exact ⟨_, moveTo_eq_ok.mpr ⟨hallowed, rfl⟩, rfl⟩

theorem markAsRunning_eq_ok :
    j.markAsRunning = .ok j' ↔ j.status = .scheduled ∧ j' = { j with status := .running } := by
  simp [markAsRunning, moveTo_eq_ok]

theorem markAsCompleted_eq_ok :
    j.markAsCompleted now = .ok j' ↔ j.status = .running ∧
      j' = { j with
        status := .completed
        lastRunTime := some now
        runCount := j.runCount + 1
        successCount := j.successCount + 1 } := by
  unfold markAsCompleted
  exact moveTo_update_eq_ok.trans (and_congr_left' beq_iff_eq)

theorem markAsFailed_eq_ok :
    j.markAsFailed now = .ok j' ↔ j.status = .running ∧
      j' = { j with
        status := .failed
        lastRunTime := some now
        runCount := j.runCount + 1
        failureCount := j.failureCount + 1 } := by
  unfold markAsFailed
  exact moveTo_update_eq_ok.trans (and_congr_left' beq_iff_eq)

theorem resetForRetry_eq_ok :
    j.resetForRetry = .ok j' ↔
      (j.status = .failed ∨ j.status = .completed) ∧ j' = { j with status := .scheduled } := by
  simp [resetForRetry, moveTo_eq_ok]

theorem cancel_eq_ok :
    j.cancel = .ok j' ↔ j.status.isTerminal = false ∧ j' = { j with status := .cancelled } := by
  unfold cancel
  rw [moveTo_eq_ok]
  refine and_congr_left' ?_
  cases j.status <;> decide

theorem pause_eq_ok :
    j.pause = .ok j' ↔ j.status.isTerminal = false ∧ j' = { j with status := .paused } := by
  unfold pause
  rw [moveTo_eq_ok]
  refine and_congr_left' ?_
  cases j.status <;> decide

theorem resume_eq_ok :
    j.resume = .ok j' ↔ j.status = .paused ∧ j' = { j with status := .scheduled } := by
  simp [resume, moveTo_eq_ok]

/-- A cancellation is a transition of the table. -/
theorem canTransitionTo_of_cancel (h : j.cancel = .ok j') :
    j.status.canTransitionTo j'.status = true := by
  obtain ⟨hterminal, rfl⟩ := cancel_eq_ok.mp h
  cases hs : j.status with
  | completed | cancelled => simp [hs, JobStatus.isTerminal] at hterminal
  | scheduled | running | failed | paused => rfl

end Job

/-- A job for every minute. -/
def report : Job Unit := .new "report" "Report" "* * * * *" "reports" ()

end Backbone.Jobs
