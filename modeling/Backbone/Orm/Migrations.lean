import Mathlib.Data.List.Sort
import Backbone.Lib.Run
import Backbone.Lib.Text

/-!
# Migrations

Calls of `migrate`, `rollback`, `rollback_n` and `status` by any number of managers on one database,
a statement at a time. The ledger `schema_migrations` is read outside the transactions that write it.

The database is PostgreSQL at READ COMMITTED: a statement reads committed rows, an `INSERT` waits
for the open transaction that has inserted or deleted a row of the same name, a `DELETE` waits for
the one that has deleted the row it found, and both locks are held to the end of the transaction.
`NOW()` is the start of the transaction, and no two transactions start at once. What a script does
is not modelled, except that it may fail. -/

namespace Backbone.Orm.Migrations

/-- A row of `schema_migrations`. -/
structure Row where
  name : String
  appliedAt : ℕ
deriving DecidableEq, Repr

/-- The two scripts of a migration. -/
inductive Script where
  | up
  | down
deriving DecidableEq, Repr

/-- The order of names in the database. -/
structure Collation where
  le : String → String → Bool
  le_total : ∀ a b, le a b = true ∨ le b a = true
  le_trans : ∀ a b c, le a b = true → le b c = true → le a c = true
  le_antisymm : ∀ a b, le a b = true → le b a = true → a = b

/-- The collation `C`. -/
def Collation.bytes : Collation where
  le a b := a ≤ b
  le_total a b := by simpa using String.le_total a b
  le_trans a b c := by simpa using String.le_trans
  le_antisymm a b := by simpa using String.le_antisymm

/-! ## Reading the files and the ledger -/

/-- The migrations of a directory, sorted by name. -/
def loadMigrationFiles (dir : List String) : List String :=
  (dir.filterMap fun fileName => Text.stripSuffix fileName ".up.sql").insertionSort (· ≤ ·)

/-- The down file is a direct path lookup. -/
def findDownMigration (dir : List String) (migrationName : String) : Bool :=
  dir.contains (migrationName ++ ".down.sql")

/-- `SELECT name FROM schema_migrations ORDER BY name` -/
def getAppliedMigrations (c : Collation) (rows : List Row) : List String :=
  (rows.map Row.name).insertionSort fun a b => c.le a b = true

/-- `SELECT name FROM schema_migrations ORDER BY applied_at DESC LIMIT 1` -/
def getLastAppliedMigration (rows : List Row) : Option String :=
  (rows.insertionSort fun a b => b.appliedAt ≤ a.appliedAt).head?.map Row.name

structure MigrationStatus where
  totalMigrations : ℕ
  appliedMigrations : List String
  pendingMigrations : List String
  lastMigration : Option String
deriving DecidableEq, Repr

/-- What `status` makes of the files and of the names it has read. -/
def MigrationStatus.of (migrationFiles appliedMigrations : List String) : MigrationStatus :=
  let details := migrationFiles.filter fun name => appliedMigrations.contains name
  let pending := migrationFiles.filter fun name => !appliedMigrations.contains name
  { totalMigrations := details.length + pending.length
    appliedMigrations := details
    pendingMigrations := pending
    lastMigration := appliedMigrations.getLast? }

/-! ## Calls -/

inductive Call where
  | migrate
  | rollback
  /-- With the rollbacks left to do. -/
  | rollbackN (count : ℕ)
  | status
deriving DecidableEq, Repr

/-- How far `apply_migration` is. -/
inductive UpStage where
  | pending
  | opened (start : ℕ)
  | executed (start : ℕ)
  | recorded (start : ℕ)
deriving DecidableEq, Repr

/-- How far `rollback_migration` is: `deleting` has found a row and waits for it, `deleted` has the
row it deleted, if any. -/
inductive DownStage where
  | pending
  | opened
  | executed
  | deleting (row : Row)
  | deleted (row : Option Row)
deriving DecidableEq, Repr

/-- What a call does next. -/
inductive Point where
  | creating (call : Call)
  | reading (call : Call)
  | applying (name : String) (rest : List String) (stage : UpStage)
  /-- With the rollbacks left to do after this one. -/
  | rollingBack (name : String) (left : ℕ) (stage : DownStage)
deriving DecidableEq, Repr

/-- `rollback_n` does not create the table. -/
def Call.first : Call → Option Point
  | .rollbackN 0 => none
  | .rollbackN (count + 1) => some (.reading (.rollbackN (count + 1)))
  | call => some (.creating call)

/-- The loop of `migrate` over the pending migrations. -/
def applyNext : List String → Option Point
  | [] => none
  | name :: rest => some (.applying name rest .pending)

/-- The last migration is rolled back, if there is one and its down file is there. -/
def rollbackLast (dir : List String) (rows : List Row) (left : ℕ) : Option Point :=
  match getLastAppliedMigration rows with
  | some name =>
    if findDownMigration dir name then some (.rollingBack name left .pending) else none
  | none => none

/-- What a call does after it has read the files and the ledger. -/
def Call.afterRead (c : Collation) (dir : List String) (rows : List Row) : Call → Option Point
  | .migrate =>
    let applied := getAppliedMigrations c rows
    applyNext ((loadMigrationFiles dir).filter fun name => !applied.contains name)
  | .rollback => rollbackLast dir rows 0
  | .rollbackN count => rollbackLast dir rows (count - 1)
  | .status => none

/-! ## The database and its calls -/

structure World where
  /-- `schema_migrations` exists. -/
  created : Bool
  /-- The committed rows. -/
  rows : List Row
  clock : ℕ
  /-- The call whose open transaction has inserted or deleted the row of the name. -/
  locks : String → Option ℕ
  calls : ℕ → Option Point
  /-- The scripts executed by committed transactions. -/
  log : List (String × Script)

/-- A new database. -/
def World.new : World := ⟨false, [], 0, fun _ => none, fun _ => none, []⟩

/-- A step of a call. The environment picks the call that goes on, the files it finds, what fails,
and whether the answer to a `COMMIT` arrives. -/
inductive Move where
  | call (call : Call)
  | createMigrationsTable
  | read (dir : List String)
  | openTx
  | execute
  | writeLedger
  | commit (answered : Bool)
  | fail
deriving DecidableEq, Repr

namespace World

def goto (w : World) (i : ℕ) (p : Option Point) : World :=
  { w with calls := Function.update w.calls i p }

def lock (w : World) (name : String) (i : ℕ) : World :=
  { w with locks := Function.update w.locks name (some i) }

/-- The transaction of the call ends. -/
def free (w : World) (i : ℕ) : World :=
  { w with locks := fun name => if w.locks name = some i then none else w.locks name }

/-- The committed rows are these, and the script has been executed. -/
def record (w : World) (rows : List Row) (name : String) (script : Script) : World :=
  { w with rows := rows, log := w.log ++ [(name, script)] }

/-- The statement on the ledger, or a try of one that waits. -/
def writeLedger (w : World) (i : ℕ) : Point → World
  | .applying name rest (.executed start) =>
    match w.locks name with
    | some _ => w
    | none =>
      -- the unique key, and VARCHAR(255)
      if name ∈ w.rows.map Row.name ∨ 255 < name.length then (w.free i).goto i none
      else (w.lock name i).goto i (some (.applying name rest (.recorded start)))
  | .rollingBack name left .executed =>
    match w.rows.find? fun row => row.name = name with
    | some row => w.goto i (some (.rollingBack name left (.deleting row)))
    | none => w.goto i (some (.rollingBack name left (.deleted none)))
  | .rollingBack name left (.deleting row) =>
    if row ∈ w.rows then
      match w.locks name with
      | some _ => w
      | none => (w.lock name i).goto i (some (.rollingBack name left (.deleted (some row))))
    else w.goto i (some (.rollingBack name left (.deleted none)))
  | _ => w

/-- A committed apply or rollback becomes visible, and a call that hears of it goes on. -/
def commit (w : World) (i : ℕ) (answered : Bool) : Point → World
  | .applying name rest (.recorded start) =>
    ((w.record (w.rows ++ [⟨name, start⟩]) name .up).free i).goto i
      (if answered then applyNext rest else none)
  | .rollingBack name left (.deleted row) =>
    ((w.record (row.elim w.rows w.rows.erase) name .down).free i).goto i
      (if answered then (Call.rollbackN left).first else none)
  | _ => w

/-- The step of a call that is at the point. -/
def stepAt (c : Collation) (w : World) (i : ℕ) : Point → Move → World
  | .creating call, .createMigrationsTable => { w with created := true }.goto i (some (.reading call))
  | .reading call, .read dir => w.goto i (if w.created then call.afterRead c dir w.rows else none)
  | .applying name rest .pending, .openTx =>
    { w with clock := w.clock + 1 }.goto i (some (.applying name rest (.opened w.clock)))
  | .rollingBack name left .pending, .openTx =>
    { w with clock := w.clock + 1 }.goto i (some (.rollingBack name left .opened))
  | .applying name rest (.opened start), .execute =>
    w.goto i (some (.applying name rest (.executed start)))
  | .rollingBack name left .opened, .execute => w.goto i (some (.rollingBack name left .executed))
  | p, .writeLedger => w.writeLedger i p
  | p, .commit answered => w.commit i answered p
  | _, .fail => (w.free i).goto i none
  | _, _ => w

def step (c : Collation) (w : World) : ℕ × Move → World
  | (i, move) =>
    match w.calls i, move with
    | none, .call call => w.goto i call.first
    | none, _ => w
    | some p, move => w.stepAt c i p move

/-! ## What a run is judged by -/

/-- The committed executions of the migration's scripts, the first one in front. -/
def executions (w : World) (name : String) : List Script :=
  (w.log.filter fun e => e.1 = name).map Prod.snd

/-- The executions of every migration alternate from `up` on, and the ledger holds those whose last
one was `up`. -/
def Kept (w : World) : Prop :=
  ∀ name, (w.executions name).IsChain (· ≠ ·) ∧ (w.executions name).head? ≠ some .down ∧
    (name ∈ w.rows.map Row.name ↔ (w.executions name).getLast? = some .up)

/-- The migration whose rollback the step commits. -/
def undone (w : World) : ℕ × Move → Option String
  | (i, .commit _) =>
    match w.calls i with
    | some (.rollingBack name _ (.deleted _)) => some name
    | _ => none
  | _ => none

/-- What a call of `status` answers with the step. -/
def answer (c : Collation) (w : World) : ℕ × Move → Option MigrationStatus
  | (i, .read dir) =>
    if w.created && w.calls i == some (.reading .status) then
      some (.of (loadMigrationFiles dir) (getAppliedMigrations c w.rows))
    else none
  | _ => none

end World

/-- The migration is the one most recently applied. -/
def MostRecent (rows : List Row) (name : String) : Prop :=
  ∃ row ∈ rows, row.name = name ∧ ∀ r ∈ rows, r.appliedAt ≤ row.appliedAt

end Backbone.Orm.Migrations
