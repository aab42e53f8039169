import Mathlib.Data.List.AList
import Backbone.Jobs.Job
import Backbone.Lib.Run

/-!
# The job scheduler

An operation reads a job, works on its copy and writes the whole copy back; each call of the storage and
each section under the lock of `active_jobs` is a step of its own. `execute_single_job` writes three
times, with the execution in between, and reads nothing back. `process_pending_jobs` works through the
copies its list was made of.

The environment of a step gives the time, what the executor answers, the delay of a retry and the order
in which the storage goes through its hash map. What the callers are told, and the counters of processed
and failed jobs, which no operation reads, are left out.

Reference: `backbone-jobs/src/scheduler.rs` and `backbone-jobs/src/job_storage/in_memory.rs`.
-/

namespace Backbone.Jobs

variable {π : Type}

/-! ## The storage -/

/-- `InMemoryJobStorage`. -/
abbrev Storage (π : Type) := AList fun _ : String => Job π

namespace Storage

/-- `InMemoryJobStorage::create_job`. -/
def createJob (s : Storage π) (job : Job π) : Except JobError (Storage π) :=
  if job.id ∈ s then .error (.jobAlreadyExists job.id) else .ok (s.insert job.id job)

/-- `InMemoryJobStorage::update_job`. -/
def updateJob (s : Storage π) (job : Job π) : Except JobError (Storage π) :=
  if job.id ∈ s then .ok (s.insert job.id job) else .error (.jobNotFound job.id)

/-- `InMemoryJobStorage::get_pending_jobs`, with the jobs in the order of the hash map. -/
def getPendingJobs (s : Storage π) (order : List String) (before : ℤ) : List (Job π) :=
  (order.filterMap s.lookup).filter fun job =>
    job.isScheduled && job.nextRunTime.any fun next => next ≤ before

variable {s : Storage π} {job : Job π}

theorem updateJob_eq_ok {s' : Storage π} :
    s.updateJob job = .ok s' ↔ job.id ∈ s ∧ s' = s.insert job.id job := by
  unfold updateJob
  split <;> rename_i h <;> simp [h, eq_comm]

theorem createJob_eq_ok {s' : Storage π} :
    s.createJob job = .ok s' ↔ job.id ∉ s ∧ s' = s.insert job.id job := by
  unfold createJob
  split <;> rename_i h <;> simp [h, eq_comm]

theorem isScheduled_of_mem_getPendingJobs {order : List String} {before : ℤ}
    (h : job ∈ s.getPendingJobs order before) : job.status = .scheduled := by
  obtain ⟨-, hpending⟩ := List.mem_filter.mp h
  simpa [Job.isScheduled] using (Bool.and_eq_true_iff.mp hpending).1

end Storage

/-! ## Operations -/

/-- The operations that move the status of a job. -/
inductive Move where
  | pause
  | resume
  | cancel
deriving DecidableEq, Repr

/-- What the environment of a step decides. -/
structure Env where
  now : ℤ
  succeeds : Bool
  delay : ℤ
  order : List String

/-- Where an operation is. The jobs an execution is followed by are those left in its list. -/
inductive Call (π : Type) where
  /-- `schedule_job`, before `create_job`. -/
  | scheduling (job : Job π)
  /-- `update_job`, before it looks at the active jobs. -/
  | updating (job existing : Job π)
  /-- `update_job`, before it writes. -/
  | writing (job : Job π)
  /-- `pause_job`, `resume_job` or `cancel_job`, before it writes. -/
  | moving (m : Move) (read job : Job π)
  /-- `process_pending_jobs`, before it looks at the active jobs. -/
  | listed (pending : List (Job π))
  /-- `execute_single_job`, before it writes that the job is running. -/
  | starting (job : Job π) (rest : List (Job π))
  | activating (copy : Job π) (rest : List (Job π))
  | executing (copy : Job π) (rest : List (Job π))
  /-- The execution has answered. -/
  | finishing (copy : Job π) (succeeded : Bool) (rest : List (Job π))
  /-- The completion is written, and the next time is not. -/
  | rescheduling (copy : Job π) (rest : List (Job π))
  /-- The failure is written, and the retry is not. -/
  | retrying (copy : Job π) (rest : List (Job π))
  | deactivating (id : String) (rest : List (Job π))
deriving DecidableEq, Repr

/-- A call of an operation. -/
inductive Operation (π : Type) where
  | scheduleJob (job : Job π)
  | updateJob (job : Job π)
  | moveJob (m : Move) (id : String)
  | triggerJob (id : String)
  | processPendingJobs

structure World (π : Type) where
  jobs : Storage π
  activeJobs : List String
  calls : ℕ → Option (Call π)

namespace World

def new (π : Type) : World π := ⟨∅, [], fun _ => none⟩

def setCall (w : World π) (i : ℕ) (c : Option (Call π)) : World π :=
  { w with calls := Function.update w.calls i c }

/-- The execution of a job is over: the operation goes on to the next one of its list. -/
def goOn (w : World π) (i : ℕ) : List (Job π) → World π
  | [] => w.setCall i none
  | job :: rest => w.setCall i (some (.starting job rest))

/-- `JobStorage::update_job`, and what follows it: an error ends the execution. -/
def update (w : World π) (i : ℕ) (job : Job π) (rest : List (Job π)) (next : World π → World π) :
    World π :=
  match w.jobs.updateJob job with
  | .ok jobs => next { w with jobs := jobs }
  | .error _ => w.goOn i rest

end World

/-- `JobScheduler::calculate_next_run_time`. -/
def calculateNextRunTime (zones : TimeZones) (job : Job π) (now : ℤ) : Except JobError ℤ := do
  let (expression, zone) ← cronScheduler zones job.cronExpression job.timezone
  expression.nextAfter now zone

/-- What `pause_job`, `resume_job` and `cancel_job` make of the job they have read. -/
def Move.apply (zones : TimeZones) (now : ℤ) : Move → Job π → Except JobError (Job π)
  | .pause, job => job.pause
  | .cancel, job => job.cancel
  | .resume, job => do
    let job ← job.resume
    let next ← calculateNextRunTime zones job now
    .ok { job with nextRunTime := some next }

variable (zones : TimeZones) (maxConcurrentJobs : ℕ)

/-- The first step of an operation, up to its first call of the storage. -/
def World.start (w : World π) (i : ℕ) (env : Env) : Operation π → World π
  | .scheduleJob job =>
    match job.validate, w.jobs.lookup job.id, calculateNextRunTime zones job env.now with
    | .ok (), none, .ok next => w.setCall i (some (.scheduling { job with nextRunTime := some next }))
    | _, _, _ => w
  | .updateJob job =>
    match job.validate, w.jobs.lookup job.id with
    | .ok (), some existing => w.setCall i (some (.updating job existing))
    | _, _ => w
  | .moveJob m id =>
    match w.jobs.lookup id with
    | none => w
    | some read =>
      match m.apply zones env.now read with
      | .ok job => w.setCall i (some (.moving m read job))
      | .error _ => w
  | .triggerJob id =>
    match w.jobs.lookup id with
    | none => w
    | some job => if job.isScheduled then w.setCall i (some (.starting job [])) else w
  | .processPendingJobs =>
    if env.order.Perm w.jobs.keys then
      w.setCall i (some (.listed (w.jobs.getPendingJobs env.order env.now)))
    else w

/-- The next step of an operation. -/
def World.resume (w : World π) (i : ℕ) (env : Env) : Call π → World π
  | .scheduling job =>
    match w.jobs.createJob job with
    | .ok jobs => { w with jobs := jobs }.setCall i none
    | .error _ => w.setCall i none
  | .updating job existing =>
    if job.id ∈ w.activeJobs then w.setCall i none
    else if job.cronExpression = existing.cronExpression then w.setCall i (some (.writing job))
    else match calculateNextRunTime zones job env.now with
      | .ok next => w.setCall i (some (.writing { job with nextRunTime := some next }))
      | .error _ => w.setCall i none
  | .writing job => w.update i job [] fun w => w.setCall i none
  | .moving _ _ job => w.update i job [] fun w => w.setCall i none
  | .listed pending =>
    -- No slot is left when there are as many active jobs as may run.
    w.goOn i (pending.take (maxConcurrentJobs - w.activeJobs.length))
  | .starting job rest =>
    match job.markAsRunning with
    | .ok copy => w.update i copy rest fun w => w.setCall i (some (.activating copy rest))
    | .error _ => w.goOn i rest
  | .activating copy rest =>
    { w with activeJobs := w.activeJobs.insert copy.id }.setCall i (some (.executing copy rest))
  | .executing copy rest => w.setCall i (some (.finishing copy env.succeeds rest))
  | .finishing copy true rest =>
    match copy.markAsCompleted env.now with
    | .ok copy => w.update i copy rest fun w => w.setCall i (some (.rescheduling copy rest))
    | .error _ => w.goOn i rest
  | .finishing copy false rest =>
    match copy.markAsFailed env.now with
    | .ok copy => w.update i copy rest fun w => w.setCall i (some (.retrying copy rest))
    | .error _ => w.goOn i rest
  | .rescheduling copy rest =>
    match calculateNextRunTime zones copy env.now with
    | .ok next =>
      w.update i { copy with nextRunTime := some next } rest fun w =>
        w.setCall i (some (.deactivating copy.id rest))
    | .error _ => w.setCall i (some (.deactivating copy.id rest))
  | .retrying copy rest =>
    if copy.canRetry then
      match { copy with nextRunTime := some (env.now + env.delay) }.resetForRetry with
      | .ok copy => w.update i copy rest fun w => w.setCall i (some (.deactivating copy.id rest))
      | .error _ => w.goOn i rest
    else w.setCall i (some (.deactivating copy.id rest))
  | .deactivating id rest =>
    { w with activeJobs := w.activeJobs.filter (· ≠ id) }.goOn i rest

/-- An operation starts, or goes on. -/
inductive Act (π : Type) where
  | start (i : ℕ) (op : Operation π) (env : Env)
  | resume (i : ℕ) (env : Env)

/-- What cannot happen leaves the world as it is. -/
def World.step (w : World π) : Act π → World π
  | .start i op env =>
    match w.calls i with
    | none => w.start zones i env op
    | some _ => w
  | .resume i env =>
    match w.calls i with
    | none => w
    | some c => w.resume zones maxConcurrentJobs i env c

end Backbone.Jobs
