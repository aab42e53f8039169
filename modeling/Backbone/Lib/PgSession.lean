import Mathlib.Data.List.Basic

/-!
# A database session

What one PostgreSQL session does with transaction commands: a transaction block is a stack of
levels, one for the block and one for each savepoint; a statement that fails aborts the block until
it is rolled back, whole or to a savepoint; a savepoint stays after a rollback to it. A session
variable set inside a level is set back when the level is rolled back.

Statements are over an arbitrary type: the session records which of them a commit made durable.

`Driver` is the client's side: it counts how many transactions it has nested and names savepoints
by the depth they were made at.
-/

namespace Backbone.Pg

variable {α : Type*}

/-- A transaction block or a savepoint in it: the statements since, and the session variables at
its start. -/
structure Level (α : Type*) where
  name : Option ℕ
  work : List α
  vars : String → String

/-- A session: the levels of the open block, innermost first, and what has been committed. -/
structure Session (α : Type*) where
  levels : List (Level α)
  aborted : Bool
  /-- The connection is gone; whatever was open has been rolled back. -/
  lost : Bool
  durable : List α
  vars : String → String

/-- A session outside any transaction. -/
def Session.idle (durable : List α) (vars : String → String) : Session α :=
  ⟨[], false, false, durable, vars⟩

/-- Outside any transaction. -/
def Session.outside (s : Session α) : Prop := s.levels = [] ∧ s.aborted = false

/-- The statements of a stack of levels, in the order they ran. -/
def workOf (levels : List (Level α)) : List α := levels.reverse.flatMap (·.work)

/-- The levels from the most recent savepoint of a name down. -/
def fromSavepoint (n : ℕ) (levels : List (Level α)) : List (Level α) :=
  levels.dropWhile fun l => l.name ≠ some n

/-- The levels above the most recent savepoint of a name. -/
def aboveSavepoint (n : ℕ) (levels : List (Level α)) : List (Level α) :=
  levels.takeWhile fun l => l.name ≠ some n

namespace Session

/-! ## Commands

Each answers whether it succeeded, and the session after it. -/

/-- A command that failed: a transaction block is aborted by it. -/
def fail (s : Session α) : Bool × Session α :=
  (false, if s.levels.isEmpty then s else { s with aborted := true })

/-- A statement, which the server may find wrong. -/
def exec (s : Session α) (a : α) (wrong : Bool) : Bool × Session α :=
  if s.lost ∨ s.aborted then (false, s)
  else if wrong then s.fail
  else
    match s.levels with
    | [] => (true, { s with durable := s.durable ++ [a] })
    | l :: levels => (true, { s with levels := { l with work := l.work ++ [a] } :: levels })

/-- A statement that reads only. -/
def probe (s : Session α) : Bool := !(s.lost || s.aborted)

/-- `set_config(var, value, false)`. -/
def setConfig (s : Session α) (var value : String) (wrong : Bool) : Bool × Session α :=
  if s.lost ∨ s.aborted then (false, s)
  else if wrong then s.fail
  else (true, { s with vars := fun v => if v = var then value else s.vars v })

/-- `BEGIN`. -/
def beginBlock (s : Session α) : Bool × Session α :=
  if s.lost then (false, s)
  else if s.levels.isEmpty then (true, { s with levels := [⟨none, [], s.vars⟩] })
  else (true, s)

/-- `SAVEPOINT n`. -/
def savepoint (s : Session α) (n : ℕ) : Bool × Session α :=
  if s.lost ∨ s.aborted ∨ s.levels.isEmpty then (false, s)
  else (true, { s with levels := ⟨some n, [], s.vars⟩ :: s.levels })

/-- `RELEASE SAVEPOINT n`: its work becomes that of the level below. -/
def release (s : Session α) (n : ℕ) : Bool × Session α :=
  if s.lost ∨ s.aborted then (false, s)
  else
    match fromSavepoint n s.levels with
    | l :: below :: rest =>
      let merged := below.work ++ workOf (aboveSavepoint n s.levels ++ [l])
      (true, { s with levels := { below with work := merged } :: rest })
    | _ => s.fail

/-- `ROLLBACK TO SAVEPOINT n`: the savepoint stays. -/
def rollbackTo (s : Session α) (n : ℕ) : Bool × Session α :=
  if s.lost then (false, s)
  else
    match fromSavepoint n s.levels with
    | l :: rest =>
      (true, { s with levels := { l with work := [] } :: rest, aborted := false, vars := l.vars })
    | [] => s.fail

/-- The end of the block without its work. -/
def discard (s : Session α) : Session α :=
  { s with levels := [], aborted := false, vars := (s.levels.getLast?.map (·.vars)).getD s.vars }

/-- `ROLLBACK`. -/
def rollback (s : Session α) : Bool × Session α := if s.lost then (false, s) else (true, s.discard)

/-- `COMMIT`: of an aborted block a quiet `ROLLBACK`; a deferred constraint may refuse it. -/
def commit (s : Session α) (refused : Bool) : Bool × Session α :=
  if s.lost then (false, s)
  else if s.aborted then (true, s.discard)
  else if refused ∧ !s.levels.isEmpty then (false, s.discard)
  else (true, { s with levels := [], durable := s.durable ++ workOf s.levels })

/-- The connection is lost. -/
def lose (s : Session α) : Session α := { s.discard with lost := true }

/-! ## What the commands do, state by state -/

variable {s : Session α} (a : α) (wrong : Bool) (n : ℕ) (var : String) (value : String)

theorem exec_aborted (haborted : s.aborted = true) : s.exec a wrong = (false, s) := by
  simp [exec, haborted]

theorem exec_lost (hlost : s.lost = true) : s.exec a wrong = (false, s) := by
  simp [exec, hlost]

theorem exec_idle (hlost : s.lost = false) (haborted : s.aborted = false)
    (hlevels : s.levels = []) :
    s.exec a wrong
      = (!wrong, { s with durable := s.durable ++ if wrong then [] else [a] }) := by
  obtain ⟨levels, aborted, lost, durable, vars⟩ := s
  subst hlost haborted hlevels
  cases wrong <;> simp [exec, fail]

theorem exec_wrong (hlost : s.lost = false) (haborted : s.aborted = false)
    (hlevels : s.levels ≠ []) : s.exec a true = (false, { s with aborted := true }) := by
  simp [exec, fail, hlost, haborted, hlevels]

theorem exec_level {l : Level α} {levels : List (Level α)} (hlost : s.lost = false)
    (haborted : s.aborted = false) (hlevels : s.levels = l :: levels) :
    s.exec a false = (true, { s with levels := { l with work := l.work ++ [a] } :: levels }) := by
  simp [exec, hlost, haborted, hlevels]

theorem release_aborted (haborted : s.aborted = true) : s.release n = (false, s) := by
  simp [release, haborted]

section

variable (hlost : s.lost = false) {rest : List (Level α)} {l : Level α}
include hlost

theorem release_level {n : ℕ} {below : Level α}
    (haborted : s.aborted = false) (hfrom : fromSavepoint n s.levels = l :: below :: rest) :
    s.release n
      = (true, { s with
          levels :=
            { below with work := below.work ++ workOf (aboveSavepoint n s.levels ++ [l]) }
              :: rest }) := by
  simp [release, hlost, haborted, hfrom]

theorem rollbackTo_level {n : ℕ}
    (hfrom : fromSavepoint n s.levels = l :: rest) :
    s.rollbackTo n
      = (true, { s with
          levels := { l with work := [] } :: rest
          aborted := false
          vars := l.vars }) := by
  simp [rollbackTo, hlost, hfrom]

theorem commit_refused (haborted : s.aborted = false)
    (hlevels : s.levels ≠ []) : s.commit true = (false, s.discard) := by
  simp [commit, hlost, haborted, hlevels]

theorem commit_accepted (haborted : s.aborted = false) :
    s.commit false = (true, { s with levels := [], durable := s.durable ++ workOf s.levels }) := by
  simp [commit, hlost, haborted]

end

/-! ## Outside any transaction -/

theorem exec_outside (h : s.outside) :
    (s.exec a wrong).2.outside ∧ (s.exec a wrong).2.vars = s.vars := by
  cases hlost : s.lost with
  | true =>
    rw [exec_lost a wrong hlost]
    exact ⟨h, rfl⟩
  | false =>
    rw [exec_idle a wrong hlost h.2 h.1]
    exact ⟨h, rfl⟩

theorem rollback_outside (h : s.outside) : s.rollback.2 = s := by
  obtain ⟨levels, aborted, lost, durable, vars⟩ := s
  obtain ⟨rfl, rfl⟩ := h
  cases lost <;> rfl

theorem rollbackTo_outside (h : s.outside) : s.rollbackTo n = (false, s) := by
  simp [rollbackTo, fail, fromSavepoint, h.1]

theorem setConfig_outside (hlost : s.lost = false) (h : s.outside) :
    s.setConfig var value false
      = (true, { s with vars := fun v => if v = var then value else s.vars v }) := by
  simp [setConfig, hlost, h.2]

/-! ## A lost connection stays lost -/

@[simp] theorem fail_lost : s.fail.2.lost = s.lost := by
  unfold fail
  split <;> rfl

@[simp] theorem exec_lost_eq : (s.exec a wrong).2.lost = s.lost := by
  unfold exec
  split
  · rfl
  split
  · exact fail_lost
  split <;> rfl

@[simp] theorem setConfig_lost_eq (wrong : Bool) :
    (s.setConfig var value wrong).2.lost = s.lost := by
  unfold setConfig
  split
  · rfl
  split
  · exact fail_lost
  · rfl

@[simp] theorem rollback_lost_eq : s.rollback.2.lost = s.lost := by
  unfold rollback
  split <;> rfl

@[simp] theorem rollbackTo_lost_eq : (s.rollbackTo n).2.lost = s.lost := by
  unfold rollbackTo
  split
  · rfl
  split
  · rfl
  · exact fail_lost

end Session

/-! ## The client's side -/

/-- A connection: its session, how deep its transactions nest, and whether it is to be closed
instead of being used again. -/
structure Driver (α : Type*) where
  session : Session α
  depth : ℕ
  closing : Bool

namespace Driver

/-- Begin a transaction, or a savepoint inside one; a refusal changes nothing. -/
def begin (d : Driver α) : Bool × Driver α :=
  let (ok, session) := if d.depth = 0 then d.session.beginBlock else d.session.savepoint d.depth
  if ok then (true, { d with session, depth := d.depth + 1 }) else (false, d)

/-- Commit the innermost transaction. -/
def commit (d : Driver α) (refused : Bool) : Bool × Driver α :=
  if d.depth = 0 then (true, d)
  else
    let (ok, session) := if d.depth = 1 then d.session.commit refused
      else d.session.release (d.depth - 1)
    (ok, { d with session, depth := if ok then d.depth - 1 else d.depth })

/-- Roll the innermost transaction back. -/
def rollback (d : Driver α) : Bool × Driver α :=
  if d.depth = 0 then (true, d)
  else
    let (ok, session) := if d.depth = 1 then d.session.rollback
      else d.session.rollbackTo (d.depth - 1)
    (ok, { d with session, depth := if ok then d.depth - 1 else d.depth })

variable (d : Driver α)

theorem rollback_session :
    d.rollback.2.session = if d.depth = 0 then d.session
      else if d.depth = 1 then d.session.rollback.2 else (d.session.rollbackTo (d.depth - 1)).2 := by
  by_cases hzero : d.depth = 0
  · simp [rollback, hzero]
  · by_cases hone : d.depth = 1 <;> simp [rollback, hzero, hone]

theorem rollback_lost_eq : d.rollback.2.session.lost = d.session.lost := by
  rw [rollback_session]
  split
  · rfl
  split <;> simp

theorem rollback_outside {d : Driver α} (h : d.session.outside) :
    d.rollback.2.session = d.session := by
  rw [rollback_session]
  split
  · rfl
  split
  · exact Session.rollback_outside h
  · exact congrArg Prod.snd (Session.rollbackTo_outside _ h)

theorem rollback_closing : d.rollback.2.closing = d.closing := by
  unfold rollback
  split <;> rfl

end Driver

end Backbone.Pg
