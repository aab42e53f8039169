import Mathlib.Data.List.AList
import Backbone.Jobs.PgCommand

/-!
# The pg_cron manager

`PgCronManager` keeps a table of the jobs it has handed to pg_cron, and finds the entry of a job in
`cron.job` by the text of its command. A call is a list of statements, any of which may fail and end it.
`sync_jobs` lists the table first and decides by that list what it creates, updates and removes.

Of `cron.job` and its functions: `cron.schedule` replaces the entry of the name, or adds one with a new
id; `cron.unschedule` removes the entry of the id. When several entries have a command, the query for it
finds the first one. The columns no call reads are left out.

Reference: `backbone-jobs/src/pg_cron.rs`.
-/

namespace Backbone.Jobs

variable {π : Type} (db : Db)

/-- A row of `backbone_cron_jobs`. -/
structure Row where
  cronExpression : String
  command : String
  active : Bool
deriving DecidableEq, Repr

/-- An entry of `cron.job`. -/
structure CronEntry where
  jobid : ℕ
  jobname : String
  schedule : String
  command : String
deriving DecidableEq, Repr

structure Db where
  jobs : AList fun _ : String => Row
  cronJobs : List CronEntry
  nextJobid : ℕ

namespace Db

def new : Db := ⟨∅, [], 1⟩

/-! ## Statements -/

/-- `INSERT INTO backbone_cron_jobs`; on a conflict the row stays as active as it is. -/
def insertRow (db : Db) (id cronExpression command : String) : Db :=
  let active := match db.jobs.lookup id with
    | some row => row.active
    | none => true
  { db with jobs := db.jobs.insert id ⟨cronExpression, command, active⟩ }

/-- `DELETE FROM backbone_cron_jobs`. -/
def deleteRow (db : Db) (id : String) : Db := { db with jobs := db.jobs.erase id }

/-- `UPDATE backbone_cron_jobs SET active`. -/
def setActive (db : Db) (id : String) (active : Bool) : Db :=
  match db.jobs.lookup id with
  | some row => { db with jobs := db.jobs.insert id { row with active := active } }
  | none => db

/-- `cron.schedule`. -/
def schedule (db : Db) (jobname schedule command : String) : Db :=
  if db.cronJobs.any (·.jobname == jobname) then
    { db with
      cronJobs := db.cronJobs.map fun e =>
        if e.jobname = jobname then { e with schedule := schedule, command := command } else e }
  else
    { db with
      cronJobs := db.cronJobs ++ [⟨db.nextJobid, jobname, schedule, command⟩]
      nextJobid := db.nextJobid + 1 }

/-- `cron.unschedule`. -/
def unschedule (db : Db) (jobid : ℕ) : Db :=
  { db with cronJobs := db.cronJobs.filter (·.jobid ≠ jobid) }

/-- The query of `remove_cron_job`, and the removal of the entry it finds. -/
def unscheduleJob (db : Db) (id : String) : Db :=
  match (db.jobs.lookup id).bind fun row => db.cronJobs.find? (·.command == row.command) with
  | some e => db.unschedule e.jobid
  | none => db

end Db

abbrev Statement := Db → Db

/-- The statements, one after the other. -/
def exec (db : Db) (ss : List Statement) : Db := ss.foldl (fun db s => s db) db

@[simp] theorem exec_nil : exec db [] = db := rfl

@[simp] theorem exec_cons (s : Statement) (ss : List Statement) :
    exec db (s :: ss) = exec (s db) ss := rfl

theorem exec_append (ss ss' : List Statement) :
    exec db (ss ++ ss') = exec (exec db ss) ss' := List.foldl_append

/-- What holds after any number of statements of one list, and then of another, holds after any number
of statements of both. -/
theorem forall_take_append {P : Db → Prop} {db : Db} {ss ss' : List Statement}
    (h : ∀ n, P (exec db (ss.take n))) (h' : ∀ n, P (exec (exec db ss) (ss'.take n))) (n : ℕ) :
    P (exec db ((ss ++ ss').take n)) := by
  rw [List.take_append, exec_append]
  by_cases hn : ss.length ≤ n
  · rw [List.take_of_length_le hn]
    exact h' _
  · have : n - ss.length = 0 := by omega
    rw [this]
    exact h n

/-! ## Calls -/

/-- The name `create_pg_cron_job` gives an entry, by the second of the clock. -/
def jobName (now : ℤ) : String := s!"backbone_job_{now / oneSecond}"

section Calls

variable (E : Texts π)

/-- `create_cron_job`. The clock is read for the command and again for the name. -/
def createCronJob (job : Job π) (clock : ℤ × ℤ) : List Statement :=
  let command := generateCronCommand E job clock.1
  [fun db => db.insertRow job.id job.cronExpression command,
    fun db => db.schedule (jobName clock.2) job.cronExpression command]

/-- `remove_cron_job`. -/
def removeCronJob (id : String) : List Statement :=
  [fun db => db.unscheduleJob id, fun db => db.deleteRow id]

/-- `update_cron_job`. -/
def updateCronJob (job : Job π) (clock : ℤ × ℤ) : List Statement :=
  removeCronJob job.id ++ createCronJob E job clock

/-- What `sync_jobs` reads of `PgCronJobInfo`. -/
structure PgCronJobInfo where
  id : String
  cronExpression : String
  active : Bool
  pgJobId : Option ℕ

/-- `list_cron_jobs`: the rows, each with every entry that has its command. -/
def Db.listCronJobs (db : Db) : List PgCronJobInfo :=
  db.jobs.entries.flatMap fun r =>
    match db.cronJobs.filter (·.command == r.2.command) with
    | [] => [⟨r.1, r.2.cronExpression, r.2.active, none⟩]
    | es => es.map fun e => ⟨r.1, r.2.cronExpression, r.2.active, some e.jobid⟩

/-- What `sync_jobs` does for a job of its list. An id is in `pg_job_ids` when the list has it. -/
def syncJob (pgCronJobs : List PgCronJobInfo) (clock : String → ℤ × ℤ) (job : Job π) :
    List Statement :=
  match pgCronJobs.find? (·.id == job.id) with
  | none => createCronJob E job (clock job.id)
  | some pgJob =>
    if pgJob.cronExpression ≠ job.cronExpression ∨ pgJob.active = false then
      updateCronJob E job (clock job.id)
    else []

/-- `sync_jobs`, with the tracked ids in the order of their hash set. -/
def syncJobs (db : Db) (backboneJobs : List (Job π)) (clock : String → ℤ × ℤ) (order : List String) :
    List Statement :=
  backboneJobs.flatMap (syncJob E db.listCronJobs clock) ++
    (order.filter fun id => id ∉ backboneJobs.map Job.id).flatMap removeCronJob

/-- The calls of the manager that write. -/
inductive PgCall (π : Type) where
  | createCronJob (job : Job π)
  | updateCronJob (job : Job π)
  | removeCronJob (id : String)
  | enableCronJob (id : String)
  | disableCronJob (id : String)
  | syncJobs (backboneJobs : List (Job π)) (order : List String)

def PgCall.statements (db : Db) (clock : String → ℤ × ℤ) : PgCall π → List Statement
  | .createCronJob job => Jobs.createCronJob E job (clock job.id)
  | .updateCronJob job => Jobs.updateCronJob E job (clock job.id)
  | .removeCronJob id => Jobs.removeCronJob id
  | .enableCronJob id => [fun db => db.setActive id true]
  | .disableCronJob id => [fun db => db.setActive id false]
  | .syncJobs backboneJobs order =>
    if order.Perm db.jobs.keys then Jobs.syncJobs E db backboneJobs clock order else []

/-- A call, what it reads of the clock for each job, and how many of its statements succeed. -/
structure PgAct (π : Type) where
  call : PgCall π
  clock : String → ℤ × ℤ
  succeeded : ℕ

def Db.step (db : Db) (a : PgAct π) : Db :=
  exec db ((a.call.statements E db a.clock).take a.succeeded)

end Calls

end Backbone.Jobs
