import Backbone.Jobs.Ticks

/-!
# Recurring jobs

A completed job stays completed: `execute_single_job` stores the next run time of a success, but never
calls `reset_for_retry` there, and `get_pending_jobs` takes scheduled jobs only. So a job recurs as long
as its executions fail. Failures are counted from the acceptance on, and a retry takes the place of the
next match.

Reference: `backbone-jobs/src/scheduler.rs` and `backbone-jobs/src/job.rs`.
-/

namespace Backbone.Jobs.Recurring

open Machine

variable {π : Type} {zones : TimeZones} {maxConcurrentJobs : ℕ}
  {j : Job π} {id : String} {p : Ticker π × History} {a : Tick π}

/-! ## Matches -/

/-- `r` is the first match of the job's expression behind the time. -/
def NextMatch (zones : TimeZones) (j : Job π) (after r : ℤ) : Prop :=
  ∃ e z, cronScheduler zones j.cronExpression j.timezone = .ok (e, z) ∧ after < r ∧
    CronExpression.IsMatch e z r ∧ ∀ t, after < t → t < r → ¬ CronExpression.IsMatch e z t

/-- A match of the job's expression lies behind `lo`, and not behind `hi`. -/
def MatchReached (zones : TimeZones) (j : Job π) (lo hi : ℤ) : Prop :=
  ∃ e z m, cronScheduler zones j.cronExpression j.timezone = .ok (e, z) ∧ lo < m ∧ m ≤ hi ∧
    CronExpression.IsMatch e z m

theorem nextMatch_of_calculate {now next : ℤ}
    (h : calculateNextRunTime zones j now = .ok next) : NextMatch zones j now next := by
  obtain ⟨⟨e, z⟩, hcron, hnext⟩ := bind_eq_ok.mp h
  obtain ⟨hlt, hmatch, hnone⟩ := CronExpression.nextAfter_spec hnext
  exact ⟨e, z, hcron, hlt, hmatch, hnone⟩

/-- When the jobs were accepted, the last tick, and how the executions ended, the last one first. -/
structure History where
  acceptedAt : String → ℤ
  lastTick : ℤ
  outcomes : List (String × Bool)

def History.new (now : ℤ) : History := ⟨fun _ => now, now, []⟩

/-- How many executions of the job have failed since one succeeded. -/
def History.failuresInARow (h : History) (id : String) : ℕ :=
  ((h.outcomes.filter (·.1 == id)).takeWhile fun e => !e.2).length

/-- The time up to which the matches of the job have been looked at. -/
def History.seen (h : History) (id : String) : ℤ := max (h.acceptedAt id) h.lastTick

def History.note (h : History) (w : Ticker π) (a : Tick π) (_ : Ticker π) : History :=
  match a with
  | .scheduleJob job =>
    match w.jobs.lookup job.id with
    | none => { h with acceptedAt := Function.update h.acceptedAt job.id w.now }
    | some _ => h
  | .wait _ => h
  | .processPendingJobs _ =>
    match w.due with
    | [] => { h with lastTick := w.now }
    | _ :: _ => h
  | .execute o =>
    match w.due with
    | [] => h
    | job :: _ => { h with outcomes := (job.id, o.succeeds) :: h.outcomes }

theorem failuresInARow_cons_self (h : History) (id : String) :
    History.failuresInARow { h with outcomes := (id, false) :: h.outcomes } id =
      h.failuresInARow id + 1 := by
  simp [History.failuresInARow]

theorem failuresInARow_cons_of_ne (h : History) {id' : String} (succeeded : Bool)
    (hne : id ≠ id') :
    History.failuresInARow { h with outcomes := (id, succeeded) :: h.outcomes } id' =
      h.failuresInARow id' := by
  simp [History.failuresInARow, hne]

/-- A job no execution of which has ended. -/
theorem failuresInARow_eq_zero {h : History} (hnone : ∀ e ∈ h.outcomes, e.1 ≠ id) :
    h.failuresInARow id = 0 := by
  have : h.outcomes.filter (·.1 == id) = [] :=
    List.filter_eq_nil_iff.mpr fun e he => by simpa using hnone e he
  rw [History.failuresInARow, this]
  rfl

/-! ## Recurrence -/

/-- No execution succeeds. -/
def NoSuccess (p : Ticker π × History) : Tick π → Prop
  | .execute o => p.1.due ≠ [] → o.succeeds = false
  | _ => True

/-- Jobs are accepted as they are built, a tick finds no more jobs than may run at once, and when it
reaches a match of a job that is to be tried again, the retry is due. -/
def Regular (zones : TimeZones) (maxConcurrentJobs : ℕ) (p : Ticker π × History) : Tick π → Prop
  | .scheduleJob job => job.status = .scheduled ∧ job.failureCount = 0
  | .processPendingJobs order =>
    (p.1.jobs.getPendingJobs order p.1.now).length ≤ maxConcurrentJobs ∧
      ∀ id, ∀ j ∈ p.1.jobs.lookup id, j.status = .scheduled → j.failureCount ≠ 0 →
        MatchReached zones j (p.2.seen id) p.1.now → ∃ r ∈ j.nextRunTime, r ≤ p.1.now
  | .wait _ | .execute _ => True

/-! ## The invariant -/

/-- A job that fails again and again: it is scheduled while it has attempts left, at its first match
before the first failure, and failed from then on. -/
structure Sound (zones : TimeZones) (w : Ticker π) (h : History) : Prop extends Listed w where
  known : ∀ e ∈ h.outcomes, e.1 ∈ w.jobs
  counted : ∀ id, ∀ j ∈ w.jobs.lookup id, h.failuresInARow id = j.failureCount.toNat
  status : ∀ id, ∀ j ∈ w.jobs.lookup id,
    (j.status = .scheduled ∧ j.failureCount < j.maxAttempts) ∨
      (j.status = .failed ∧ j.maxAttempts ≤ j.failureCount)
  first : ∀ id, ∀ j ∈ w.jobs.lookup id, j.failureCount = 0 →
    ∃ r ∈ j.nextRunTime, NextMatch zones j (h.acceptedAt id) r

theorem sound_new (now : ℤ) : Sound zones (Ticker.new π now) (History.new now) where
  toListed := listed_new now
  known e he := by cases he
  counted id j hj := by cases hj
  status id j hj := by cases hj
  first id j hj := by cases hj

theorem maxAttempts_pos {job : Job π} (h : job.validate = .ok ()) : 0 < job.maxAttempts := by
  rw [UInt32.pos_iff_ne_zero]
  rintro hzero
  unfold Job.validate at h
  iterate 4
    split at h
    · cases h
  cases h

/-- A counter below another one does not wrap. -/
theorem toNat_add_one {a b : UInt32} (h : a < b) : (a + 1).toNat = a.toNat + 1 := by
  have hb := b.toNat_lt
  have hab := UInt32.lt_iff_toNat_lt.mp h
  rw [UInt32.toNat_add]
  exact Nat.mod_eq_of_lt (by simp; omega)

section Executed

variable {job : Job π} {o : Outcome} {now : ℤ}

theorem maxAttempts_executed : (job.executed zones now o).maxAttempts = job.maxAttempts := by
  unfold Job.executed
  split
  · rfl
  · split <;> rfl

theorem failureCount_executed (hfails : o.succeeds = false) :
    (job.executed zones now o).failureCount = job.failureCount + 1 := by
  rw [Job.executed, if_neg (by simp [hfails])]
  split <;> rfl

/-- A failed execution leaves the job to a retry while it has attempts left. -/
theorem executed_of_lt (hfails : o.succeeds = false)
    (hless : job.failureCount + 1 < job.maxAttempts) :
    (job.executed zones now o).status = .scheduled ∧
      (job.executed zones now o).nextRunTime = some (now + o.delay) := by
  rw [Job.executed, if_neg (by simp [hfails]), if_pos hless]
  exact ⟨rfl, rfl⟩

theorem executed_of_not_lt (hfails : o.succeeds = false)
    (hless : ¬ job.failureCount + 1 < job.maxAttempts) :
    (job.executed zones now o).status = .failed := by
  rw [Job.executed, if_neg (by simp [hfails]), if_neg hless]

end Executed

section Step

variable {w : Ticker π} {h : History}

section

variable (hs : Sound zones w h) {job : Job π}
include hs

theorem Sound.setAccepted {id : String} (hid : w.jobs.lookup id = none)
    (t : ℤ) : Sound zones w { h with acceptedAt := Function.update h.acceptedAt id t } := by
  refine ⟨hs.toListed, hs.known, hs.counted, hs.status, fun id' j hj hzero => ?_⟩
  have hne : id' ≠ id := by
    rintro rfl
    rw [hid] at hj
    cases hj
  show ∃ r ∈ j.nextRunTime, NextMatch zones j (Function.update h.acceptedAt id t id') r
  rw [Function.update_of_ne hne]
  exact hs.first id' j hj hzero

theorem Sound.scheduleJob (hscheduled : job.status = .scheduled)
    (hzero : job.failureCount = 0) :
    Sound zones (w.step zones maxConcurrentJobs (.scheduleJob job))
      (h.note w (.scheduleJob job) (w.step zones maxConcurrentJobs (.scheduleJob job))) := by
  have hlisted : Listed (w.step zones maxConcurrentJobs (.scheduleJob job)) := hs.toListed.step _
  simp only [Ticker.step, History.note] at hlisted ⊢
  cases hlookup : w.jobs.lookup job.id with
  | some existing =>
    -- A job of that id is stored, and nothing changes.
    split
    · rename_i jobs hjobs
      obtain ⟨-, hnone, -⟩ := scheduleJob_eq_ok.mp hjobs
      rw [hlookup] at hnone
      cases hnone
    · exact hs
  | none =>
    have hs' := hs.setAccepted hlookup w.now
    split at hlisted
    · rename_i jobs hjobs
      obtain ⟨hvalid, -, next, hnext, rfl⟩ := scheduleJob_eq_ok.mp hjobs
      have hnew : job.id ∉ w.jobs := AList.lookup_eq_none.mp hlookup
      dsimp only
      refine ⟨hlisted, fun e he => (AList.mem_insert _).mpr (.inr (hs.known e he)), fun id j hj => ?_,
        fun id j hj => ?_, fun id j hj hfirst => ?_⟩
      · rcases Table.lookup_insert_cases hj with ⟨rfl, rfl⟩ | ⟨-, hj⟩
        · have hnone : ∀ e ∈ h.outcomes, e.1 ≠ job.id := by
            rintro e he heq
            exact hnew (heq ▸ hs.known e he)
          refine (failuresInARow_eq_zero hnone).trans ?_
          show 0 = job.failureCount.toNat
          rw [hzero]
          rfl
        · exact hs'.counted id j hj
      · rcases Table.lookup_insert_cases hj with ⟨rfl, rfl⟩ | ⟨-, hj⟩
        · refine .inl ⟨hscheduled, ?_⟩
          show job.failureCount < job.maxAttempts
          rw [hzero]
          exact maxAttempts_pos hvalid
        · exact hs'.status id j hj
      · rcases Table.lookup_insert_cases hj with ⟨rfl, rfl⟩ | ⟨-, hj⟩
        · refine ⟨next, rfl, ?_⟩
          show NextMatch zones _ (Function.update h.acceptedAt job.id w.now job.id) next
          rw [Function.update_self]
          exact nextMatch_of_calculate hnext
        · exact hs'.first id j hj hfirst
    · exact hs'

/-- A job that waits for execution may fail once more. -/
theorem Sound.less_of_due (hjob : job ∈ w.due) : job.failureCount < job.maxAttempts := by
  rcases hs.status job.id job (hs.stored job hjob) with ⟨-, hless⟩ | ⟨hstatus, -⟩
  · exact hless
  · rw [hs.scheduled job hjob] at hstatus
    cases hstatus

theorem Sound.execute {o : Outcome} (hfails : w.due ≠ [] → o.succeeds = false) :
    Sound zones (w.step zones maxConcurrentJobs (.execute o))
      (h.note w (.execute o) (w.step zones maxConcurrentJobs (.execute o))) := by
  have hlisted : Listed (w.step zones maxConcurrentJobs (.execute o)) := hs.toListed.step _
  simp only [Ticker.step, History.note] at hlisted ⊢
  cases hdue : w.due with
  | nil => exact hs
  | cons job rest =>
    simp only [hdue] at hlisted
    have hfailed : o.succeeds = false := hfails (by simp [hdue])
    have hjob : job ∈ w.due := by simp [hdue]
    have hstored := hs.stored job hjob
    have hless := hs.less_of_due hjob
    have hcount : (job.failureCount + 1).toNat = job.failureCount.toNat + 1 := toNat_add_one hless
    rw [hfailed]
    refine ⟨hlisted, fun e he => ?_, fun id j hj => ?_, fun id j hj => ?_, fun id j hj hzero => ?_⟩
    · rcases List.mem_cons.mp he with rfl | he
      · exact (AList.mem_insert _).mpr (.inl rfl)
      · exact (AList.mem_insert _).mpr (.inr (hs.known e he))
    · rcases Table.lookup_insert_cases hj with ⟨rfl, rfl⟩ | ⟨hid, hj⟩
      · rw [failuresInARow_cons_self, hs.counted job.id job hstored, failureCount_executed hfailed,
          hcount]
      · rw [failuresInARow_cons_of_ne _ _ (Ne.symm hid)]
        exact hs.counted id j hj
    · rcases Table.lookup_insert_cases hj with ⟨rfl, rfl⟩ | ⟨hid, hj⟩
      · rw [maxAttempts_executed, failureCount_executed hfailed]
        by_cases hnext : job.failureCount + 1 < job.maxAttempts
        · exact .inl ⟨(executed_of_lt hfailed hnext).1, hnext⟩
        · refine .inr ⟨executed_of_not_lt hfailed hnext, ?_⟩
          rw [UInt32.lt_iff_toNat_lt] at hnext
          rw [UInt32.le_iff_toNat_le]
          omega
      · exact hs.status id j hj
    · rcases Table.lookup_insert_cases hj with ⟨rfl, rfl⟩ | ⟨hid, hj⟩
      · rw [failureCount_executed hfailed] at hzero
        rw [hzero] at hcount
        exact absurd hcount.symm (Nat.succ_ne_zero _)
      · exact hs.first id j hj hzero

theorem Sound.step {a : Tick π}
    (hregular : Regular zones maxConcurrentJobs (w, h) a) (hfails : NoSuccess (w, h) a) :
    Sound zones (w.step zones maxConcurrentJobs a)
      (h.note w a (w.step zones maxConcurrentJobs a)) := by
  cases a with
  | scheduleJob job => exact hs.scheduleJob hregular.1 hregular.2
  | wait d => exact ⟨hs.toListed.step (.wait d), hs.known, hs.counted, hs.status, hs.first⟩
  | processPendingJobs order =>
    have hlisted : Listed (w.step zones maxConcurrentJobs (.processPendingJobs order)) :=
      hs.toListed.step _
    simp only [Ticker.step, History.note] at hlisted ⊢
    cases hdue : w.due with
    | nil =>
      simp only [hdue] at hlisted
      by_cases horder : order.Perm w.jobs.keys
      · rw [if_pos horder] at hlisted ⊢
        exact ⟨hlisted, hs.known, hs.counted, hs.status, hs.first⟩
      · rw [if_neg horder]
        exact ⟨hs.toListed, hs.known, hs.counted, hs.status, hs.first⟩
    | cons job rest => exact hs
  | execute o => exact hs.execute hfails

end

end Step

/-! ## Recurrence over runs -/

/-- Another tick a minute later. -/
def nextMinute : List (Tick Unit) := [.wait 60000000000, .processPendingJobs ["report"]]

end Backbone.Jobs.Recurring
