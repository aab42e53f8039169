import Backbone.Lib.PgSession
import Backbone.Lib.Run

/-!
# Write transactions and their savepoints

`in_write_tx` and `within_savepoint` run a body as one unit on a connection: a transaction when none
is open there, else a savepoint of it. A unit is finished with the result of its body, or dropped
with the future it runs in; then a spawned task rolls it back. A unit whose future is dropped while
it is being finished counts as finished and leaves no task.

The model is one connection with the units that are open on it. The bodies of a tree of units show
as the sequence of what they do: a unit begins, a statement runs, the innermost unit ends with `Ok`
or `Err`, or is dropped. Whether a body passes a failure on or swallows it is in what it does next.

Reference: `backbone-orm/src/write_tx.rs`.
-/

namespace Backbone.Orm

open Pg

variable {α : Type*} {levels : List (Level α)} {d : Driver α} {base : ℕ} (stmts : List α)

/-! ## Units -/

/-- The loop of `rollback_to`, for at most `fuel` rounds. -/
def rollbackLoop : ℕ → ℕ → Driver α → Driver α
  | 0, _, d => d
  | fuel + 1, base, d =>
    if base < d.depth then
      match d.rollback with
      | (true, d) => rollbackLoop fuel base d
      | (false, d) => { d with closing := true }
    else d

/-- `rollback_to`: roll back to `base` depth; close the connection if that fails. -/
def rollbackTo (d : Driver α) (base : ℕ) : Driver α := rollbackLoop d.depth base d

/-- `TxUnit::finish`: whether it returns `Ok`, for a body that does. -/
def finish (d : Driver α) (base : ℕ) (ok refused : Bool) : Bool × Driver α :=
  if !ok then (false, rollbackTo d base)
  -- `COMMIT` of an aborted transaction is a quiet `ROLLBACK`, so the outermost unit probes first.
  else if base = 0 ∧ !d.session.probe then (false, rollbackTo d base)
  else
    match d.commit refused with
    | (true, d) => (true, d)
    | (false, d) => (false, rollbackTo d base)

/-- Where `TxUnit::finish` awaits: the lock, the probe, `COMMIT` or `RELEASE` (the server may have it
already), or a `ROLLBACK` after some rounds of `rollback_to`. -/
inductive Await where
  | lock
  | probe
  | commit (sent : Bool)
  | rollback (rounds : ℕ) (sent : Bool)

/-- `rollback_to`, dropped after some rounds: the next command may have reached the server, the depth
is not counted down for it. -/
def rollbackToCut (d : Driver α) (base rounds : ℕ) (sent : Bool) : Driver α :=
  let d := rollbackLoop rounds base d
  if sent ∧ base < d.depth then { d with session := d.rollback.2.session } else d

/-- `TxUnit::finish`, its future dropped at an await; `none` if it does not come to that one. -/
def finishCut (d : Driver α) (base : ℕ) (ok refused : Bool) : Await → Option (Driver α)
  | .lock => some d
  | .probe => if ok ∧ base = 0 then some d else none
  | .commit sent =>
    if !ok ∨ base = 0 ∧ !d.session.probe then none
    else if sent then some { d with session := (d.commit refused).2.session }
    else some d
  | .rollback rounds sent =>
    if !ok ∨ base = 0 ∧ !d.session.probe then some (rollbackToCut d base rounds sent)
    else
      match d.commit refused with
      | (true, _) => none
      | (false, d) => some (rollbackToCut d base rounds sent)

/-- A unit that has begun: `base_depth`, and beside it the statements that became its own (those of
its body, and of each nested unit that returned `Ok`) and what was durable when it began. -/
structure TxUnit (α : Type*) where
  base : ℕ
  stmts : List α
  durableAt : List α

/-- A unit that was finished: what it returned, its statements, what was durable when it began and
is now, and the depth it left. -/
structure Finished (α : Type*) where
  base : ℕ
  ok : Bool
  stmts : List α
  before : List α
  after : List α
  depth : ℕ
  closing : Bool

/-- A connection, the units open on it (innermost first), the rollback tasks of dropped units that
have not run, and the units that were finished. -/
structure Connection (α : Type*) where
  driver : Driver α
  units : List (TxUnit α)
  tasks : List ℕ
  /-- A unit was dropped when no runtime was left. -/
  stopped : Bool
  log : List (Finished α)

/-- A connection as the pool or the request hands it out. -/
def Connection.idle (durable : List α) (vars : String → String) : Connection α :=
  ⟨⟨.idle durable vars, 0, false⟩, [], [], false, []⟩

/-- What happens on a connection. -/
inductive TxAct (α : Type*) where
  | begin
  | stmt (a : α) (wrong : Bool)
  /-- The innermost unit's body returned; a deferred constraint may refuse the commit. -/
  | finish (ok refused : Bool)
  | drop (runtime : Bool)
  /-- The innermost unit's future is dropped while the unit is being finished. -/
  | cut (ok refused : Bool) (await : Await)
  /-- One of the rollback tasks takes the connection. -/
  | task (i : ℕ)
  | lose

/-- The statements of a unit become its parent's. -/
def adopt (stmts : List α) : List (TxUnit α) → List (TxUnit α)
  | [] => []
  | u :: units => { u with stmts := u.stmts ++ stmts } :: units

def Connection.step (c : Connection α) : TxAct α → Connection α
  | .begin =>
    match c.driver.begin with
    | (true, driver) =>
      { c with driver, units := ⟨c.driver.depth, [], c.driver.session.durable⟩ :: c.units }
    | (false, driver) => { c with driver }
  | .stmt a wrong =>
    { c with driver.session := (c.driver.session.exec a wrong).2, units := adopt [a] c.units }
  | .finish ok refused =>
    match c.units with
    | [] => c
    | u :: units =>
      let (ok, driver) := Orm.finish c.driver u.base ok refused
      { c with
        driver
        units := if ok then adopt u.stmts units else units
        log := c.log ++ [⟨u.base, ok, u.stmts, u.durableAt, driver.session.durable, driver.depth,
          driver.closing⟩] }
  | .drop runtime =>
    match c.units with
    | [] => c
    | u :: units =>
      if runtime then { c with units, tasks := c.tasks ++ [u.base] }
      else { c with units, stopped := true, driver.closing := true }
  | .cut ok refused await =>
    match c.units with
    | [] => c
    | u :: units =>
      match finishCut c.driver u.base ok refused await with
      | none => c
      | some driver => { c with driver, units }
  | .task i =>
    match c.tasks[i]? with
    | none => c
    | some base => { c with driver := rollbackTo c.driver base, tasks := c.tasks.eraseIdx i }
  | .lose => { c with driver.session := c.driver.session.lose }

/-- The connection is used only when no dropped unit waits for its rollback, and no future is dropped
while its unit is being finished. -/
def Prompt (c : Connection α) : TxAct α → Prop
  | .begin | .stmt .. | .finish .. => c.tasks = [] ∧ c.stopped = false
  | .drop _ | .task _ | .lose => True
  | .cut .. => False

@[simp] theorem adopt_nil : adopt stmts [] = [] := rfl

@[simp] theorem adopt_cons (u : TxUnit α) (units : List (TxUnit α)) :
    adopt stmts (u :: units) = { u with stmts := u.stmts ++ stmts } :: units := rfl

@[simp] theorem length_adopt (units : List (TxUnit α)) :
    (adopt stmts units).length = units.length := by
  cases units <;> rfl

/-! ## Levels and units -/

/-- The levels of a session are those of its units: each unit has the level it began with, under the
name the driver gave it, and above it the savepoints of nested units that were rolled back. In an
aborted block the innermost unit's work is not known. -/
inductive Stacked : Bool → List (TxUnit α) → List (Level α) → Prop
  | nil : Stacked false [] []
  | cons {aborted : Bool} {u : TxUnit α} {units : List (TxUnit α)} (stale : List (Level α))
      {bottom : Level α} {below : List (Level α)} (hbelow : Stacked false units below)
      (hbase : u.base = units.length)
      (hname : bottom.name = if units.length = 0 then none else some units.length)
      (hstale : ∀ l ∈ stale, l.name = some (units.length + 1))
      (hwork : aborted = false → workOf (stale ++ [bottom]) = u.stmts) :
      Stacked aborted (u :: units) (stale ++ bottom :: below)

/-- A working connection whose levels are those of some units. -/
structure Holds (d : Driver α) (units : List (TxUnit α)) : Prop where
  stacked : Stacked d.session.aborted units d.session.levels
  depth_eq : d.depth = units.length
  alive : d.session.lost = false

theorem workOf_append_head (l : Level α) (levels : List (Level α)) (w : List α) :
    workOf ({ l with work := l.work ++ w } :: levels) = workOf (l :: levels) ++ w := by
  simp [workOf, List.flatMap_append]

variable {units : List (TxUnit α)} {u : TxUnit α} {l : Level α}

/-- Work added to the innermost level is the innermost unit's. -/
theorem Stacked.append (h : Stacked false (u :: units) (l :: levels)) (w : List α) :
    Stacked false ({ u with stmts := u.stmts ++ w } :: units)
      ({ l with work := l.work ++ w } :: levels) := by
  generalize hlevels : l :: levels = all at h
  cases h with
  | @cons _ _ _ stale bottom below hbelow hbase hname hstale hwork =>
    cases stale with
    | nil =>
      injection hlevels with hl hlevels
      subst hl hlevels
      refine .cons [] hbelow hbase hname (by simp) fun _ => ?_
      have := hwork rfl
      simp only [List.nil_append] at this ⊢
      rw [workOf_append_head, this]
    | cons s stale =>
      injection hlevels with hl hlevels
      subst hl hlevels
      refine .cons ({ l with work := l.work ++ w } :: stale) hbelow hbase hname ?_ fun _ => ?_
      · intro l' hl'
        rcases List.mem_cons.mp hl' with rfl | hl'
        · exact hstale l List.mem_cons_self
        · exact hstale l' (List.mem_cons_of_mem _ hl')
      · have := hwork rfl
        simp only [List.cons_append] at this ⊢
        rw [workOf_append_head, this]

variable {aborted : Bool} {d' : Driver α}

/-- What a statement failing in it does to the innermost unit is not known. -/
theorem Stacked.abort (a : List α) (h : Stacked aborted units levels) (hunits : units ≠ []) :
    Stacked true (adopt a units) levels := by
  cases h with
  | nil => exact absurd rfl hunits
  | cons stale hbelow hbase hname hstale _ =>
    exact .cons stale hbelow hbase hname hstale nofun

theorem Stacked.levels_nil (h : Stacked aborted [] levels) : levels = [] := by
  cases h
  rfl

theorem Stacked.levels_cons (h : Stacked aborted (u :: units) levels) :
    ∃ l rest, levels = l :: rest := by
  cases h with
  | cons stale _ _ _ _ _ => cases stale <;> exact ⟨_, _, rfl⟩

theorem Stacked.workOf_outermost (h : Stacked false [u] levels) : workOf levels = u.stmts := by
  cases h with
  | cons stale hbelow _ _ _ hwork =>
    obtain rfl := hbelow.levels_nil
    exact hwork rfl

/-- The most recent savepoint under a unit's own name is the level the unit began with. -/
theorem Stacked.split (h : Stacked aborted (u :: units) levels) (hunits : units ≠ []) :
    ∃ stale bottom below, fromSavepoint units.length levels = bottom :: below ∧
      aboveSavepoint units.length levels = stale ∧ Stacked false units below ∧
      bottom.name = some units.length ∧ (aborted = false → workOf (stale ++ [bottom]) = u.stmts) := by
  cases h with
  | @cons _ _ _ stale bottom below hbelow hbase hname hstale hwork =>
    have hlength : units.length ≠ 0 := by simpa using hunits
    rw [if_neg hlength] at hname
    have habove : ∀ l ∈ stale, decide (l.name ≠ some units.length) = true := by
      intro l hl
      simp [hstale l hl]
    refine ⟨stale, bottom, below, ?_, ?_, hbelow, hname, hwork⟩
    · rw [fromSavepoint, List.dropWhile_append_of_pos habove]
      simp [hname]
    · rw [aboveSavepoint, List.takeWhile_append_of_pos habove]
      simp [hname]

/-- A savepoint that was rolled back stays on the levels of the unit below. -/
theorem Stacked.stale (h : Stacked false (u :: units) levels)
    (hname : l.name = some (units.length + 1)) (hwork : l.work = []) :
    Stacked false (u :: units) (l :: levels) := by
  cases h with
  | @cons _ _ _ stale bottom below hbelow hbase hbottom hstale hown =>
    refine .cons (l :: stale) hbelow hbase hbottom ?_ fun hab => ?_
    · intro l' hl'
      rcases List.mem_cons.mp hl' with rfl | hl'
      · exact hname
      · exact hstale l' hl'
    · rw [← hown hab]
      simp [workOf, hwork]

/-! ## The driver on the levels of units -/

/-- What a driver command leaves as it was. -/
structure Untouched (d d' : Driver α) : Prop where
  durable : d'.session.durable = d.session.durable
  lost : d'.session.lost = d.session.lost
  closing : d'.closing = d.closing

theorem Untouched.refl (d : Driver α) : Untouched d d := ⟨rfl, rfl, rfl⟩

theorem Untouched.trans {d'' : Driver α} (h : Untouched d d') (h' : Untouched d' d'') :
    Untouched d d'' :=
  ⟨h'.durable.trans h.durable, h'.lost.trans h.lost, h'.closing.trans h.closing⟩

/-- A rollback undoes the innermost unit. -/
theorem Holds.rollback (h : Holds d (u :: units)) :
    ∃ d', d.rollback = (true, d') ∧ Holds d' units ∧ Untouched d d' := by
  obtain ⟨hstacked, hdepth, halive⟩ := h
  rw [List.length_cons] at hdepth
  cases units with
  | nil =>
    refine ⟨{ d with session := d.session.discard, depth := 0 }, ?_, ⟨.nil, rfl, halive⟩,
      ⟨rfl, rfl, rfl⟩⟩
    simp [Driver.rollback, Session.rollback, hdepth, halive]
  | cons v units =>
    obtain ⟨stale, bottom, below, hfrom, -, hbelow, hname, -⟩ := hstacked.split (by simp)
    have hzero : d.depth ≠ 0 := by omega
    have hone : d.depth ≠ 1 := by simp [hdepth]
    let session : Session α := { d.session with
      levels := { bottom with work := [] } :: below
      aborted := false
      vars := bottom.vars }
    refine ⟨{ d with session, depth := (v :: units).length }, ?_,
      ⟨hbelow.stale hname rfl, rfl, halive⟩, ⟨rfl, rfl, rfl⟩⟩
    rw [Driver.rollback, if_neg hzero, if_neg hone, hdepth, Nat.add_sub_cancel,
      Session.rollbackTo_level halive hfrom]
    rfl

/-- `rollback_to` undoes the units above its depth. -/
theorem Holds.rollbackLoop (inner : List (TxUnit α)) (h : Holds d (inner ++ units)) {fuel : ℕ}
    (hfuel : inner.length ≤ fuel) :
    Holds (rollbackLoop fuel units.length d) units ∧
      Untouched d (rollbackLoop fuel units.length d) := by
  induction inner generalizing d fuel with
  | nil =>
    have hdone : ¬ units.length < d.depth := by simp [h.depth_eq]
    cases fuel with
    | zero => exact ⟨h, .refl d⟩
    | succ fuel =>
      rw [Orm.rollbackLoop, if_neg hdone]
      exact ⟨h, .refl d⟩
  | cons u inner ih =>
    obtain ⟨fuel, rfl⟩ : ∃ n, fuel = n + 1 := ⟨fuel - 1, by simp at hfuel; omega⟩
    obtain ⟨d', hrollback, hd', hsame⟩ := Holds.rollback h
    have hmore : units.length < d.depth := by
      rw [h.depth_eq, List.length_append, List.length_cons]
      omega
    rw [Orm.rollbackLoop, if_pos hmore, hrollback]
    obtain ⟨hholds, hloop⟩ := ih hd' (by simpa using hfuel)
    exact ⟨hholds, hsame.trans hloop⟩

theorem Holds.rollbackTo {inner : List (TxUnit α)} (h : Holds d (inner ++ units))
    (hbase : base = units.length) :
    Holds (rollbackTo d base) units ∧ Untouched d (rollbackTo d base) := by
  subst hbase
  refine h.rollbackLoop inner ?_
  rw [h.depth_eq, List.length_append]
  omega

/-- The outermost `rollback_to` ends the block, whatever is left of it. -/
theorem holds_rollbackTo_outermost (hdepth : d.depth = 1) (halive : d.session.lost = false) :
    Holds (rollbackTo d 0) [] ∧ Untouched d (rollbackTo d 0) := by
  have hrollback : d.rollback = (true, { d with session := d.session.discard, depth := 0 }) := by
    simp [Driver.rollback, Session.rollback, hdepth, halive]
  have hloop : rollbackTo d 0 = { d with session := d.session.discard, depth := 0 } := by
    refine (congrArg (rollbackLoop · 0 d) hdepth).trans ?_
    rw [rollbackLoop, if_pos (by omega), hrollback]
    rfl
  rw [hloop]
  exact ⟨⟨.nil, rfl, halive⟩, ⟨rfl, rfl, rfl⟩⟩

/-- At or below its depth, `rollback_to` has nothing to do. -/
theorem rollbackTo_of_le (h : d.depth ≤ base) : rollbackTo d base = d := by
  unfold rollbackTo
  cases d.depth with
  | zero => rfl
  | succ n => rw [rollbackLoop, if_neg (by omega)]

/-- On a lost connection, `rollback_to` marks it for closing. -/
theorem rollbackTo_of_lost (hlost : d.session.lost = true) (h : base < d.depth) :
    rollbackTo d base = { d with closing := true } := by
  have hzero : d.depth ≠ 0 := by omega
  have hrollback : d.rollback = (false, d) := by
    simp [Driver.rollback, Session.rollback, Session.rollbackTo, hlost, hzero]
  have hloop : ∀ n, rollbackLoop (n + 1) base d = { d with closing := true } := fun n => by
    rw [rollbackLoop, if_pos h, hrollback]
  obtain ⟨n, hn⟩ := Nat.exists_eq_succ_of_ne_zero hzero
  exact (congrArg (rollbackLoop · base d) hn).trans (hloop n)

theorem begin_of_lost (hlost : d.session.lost = true) : d.begin = (false, d) := by
  by_cases hzero : d.depth = 0 <;>
    simp [Driver.begin, Session.beginBlock, Session.savepoint, hlost, hzero]

/-- On a lost connection a unit returns `Err`, and the connection is marked for closing. -/
theorem finish_of_lost (ok refused : Bool) (hlost : d.session.lost = true) (h : base < d.depth) :
    finish d base ok refused = (false, { d with closing := true }) := by
  have hcommit : d.commit refused = (false, d) := by
    simp [Driver.commit, Session.commit, Session.release, hlost, show d.depth ≠ 0 by omega]
  rw [← rollbackTo_of_lost hlost h]
  cases ok with
  | false => rfl
  | true =>
    by_cases hgo : base = 0 ∧ (!d.session.probe) = true
    · simp only [finish, Bool.not_true, Bool.false_eq_true, if_false, if_pos hgo]
    · simp only [finish, Bool.not_true, Bool.false_eq_true, if_false, if_neg hgo, hcommit]

/-- A refused begin changes nothing; a unit that begins has a level of its own. -/
theorem Holds.begin (h : Holds d units) (durableAt : List α) :
    d.begin = (false, d) ∨
    ∃ d', d.begin = (true, d') ∧ Holds d' (⟨d.depth, [], durableAt⟩ :: units) ∧ Untouched d d' := by
  obtain ⟨hstacked, hdepth, halive⟩ := h
  by_cases hab : d.session.aborted = true
  · cases units with
    | nil =>
      rw [hab] at hstacked
      cases hstacked
    | cons u units =>
      left
      have hzero : d.depth ≠ 0 := by simp [hdepth]
      simp [Driver.begin, Session.savepoint, hzero, hab]
  · rw [Bool.not_eq_true] at hab
    rw [hab] at hstacked
    right
    let top : Level α := ⟨if units.length = 0 then none else some units.length, [], d.session.vars⟩
    let session : Session α := { d.session with levels := top :: d.session.levels }
    have hopen : (if d.depth = 0 then d.session.beginBlock else d.session.savepoint d.depth)
        = (true, session) := by
      cases units with
      | nil =>
        have hlevels := hstacked.levels_nil
        simp [Session.beginBlock, hdepth, halive, hlevels, session, top]
      | cons u units =>
        obtain ⟨l, rest, hlevels⟩ := hstacked.levels_cons
        simp [Session.savepoint, hdepth, halive, hab, hlevels, session, top]
    refine ⟨{ d with session, depth := d.depth + 1 }, ?_, ⟨?_, by simp [hdepth], halive⟩,
      ⟨rfl, rfl, rfl⟩⟩
    · rw [Driver.begin, hopen]
      rfl
    · change Stacked d.session.aborted _ ([] ++ top :: d.session.levels)
      rw [hab]
      exact .cons [] hstacked hdepth rfl (by simp) fun _ => rfl

/-- A statement becomes part of the innermost unit. -/
theorem Holds.stmt (h : Holds d units) (a : α) (wrong : Bool) :
    Holds { d with session := (d.session.exec a wrong).2 } (adopt [a] units) ∧
      (units ≠ [] → (d.session.exec a wrong).2.durable = d.session.durable) := by
  obtain ⟨hstacked, hdepth, halive⟩ := h
  rw [← length_adopt [a]] at hdepth
  cases hab : d.session.aborted with
  | true =>
    rw [hab] at hstacked
    have hunits : units ≠ [] := by
      rintro rfl
      cases hstacked
    rw [Session.exec_aborted a wrong hab]
    exact ⟨⟨by simpa [hab] using hstacked.abort [a] hunits, hdepth, halive⟩, fun _ => rfl⟩
  | false =>
    rw [hab] at hstacked
    cases units with
    | nil =>
      have hlevels := hstacked.levels_nil
      rw [Session.exec_idle a wrong halive hab hlevels]
      refine ⟨⟨?_, hdepth, halive⟩, fun h => absurd rfl h⟩
      simpa [hab, hlevels] using Stacked.nil
    | cons u units =>
      obtain ⟨l, rest, hlevels⟩ := hstacked.levels_cons
      cases wrong with
      | true =>
        rw [Session.exec_wrong a halive hab (by simp [hlevels])]
        exact ⟨⟨hstacked.abort [a] (by simp), hdepth, halive⟩, fun _ => rfl⟩
      | false =>
        rw [hlevels] at hstacked
        rw [Session.exec_level a halive hab hlevels]
        refine ⟨⟨?_, hdepth, halive⟩, fun _ => rfl⟩
        simpa [hab] using hstacked.append [a]

/-- `TxUnit::finish` where the driver is asked to commit. -/
theorem finish_of_commit {ok refused : Bool}
    (hprobe : base = 0 → d.session.probe = true) (hcommit : d.commit refused = (ok, d')) :
    finish d base true refused = (ok, if ok then d' else rollbackTo d' base) := by
  have hgo : ¬(base = 0 ∧ (!d.session.probe) = true) := by
    rintro ⟨hzero, hfailed⟩
    simp [hprobe hzero] at hfailed
  simp only [finish, Bool.not_true, Bool.false_eq_true, if_false, if_neg hgo, hcommit]
  cases ok <;> rfl

/-- In a block that is aborted no unit returns `Ok`: the probe fails for the outermost one, and
`RELEASE` is refused for the others. -/
theorem Holds.finish_aborted (h : Holds d (u :: units)) (hbase : u.base = units.length)
    (refused : Bool) (hab : d.session.aborted = true) :
    Orm.finish d u.base true refused = (false, Orm.rollbackTo d u.base) := by
  by_cases hzero : u.base = 0
  · have hprobe : d.session.probe = false := by simp [Session.probe, hab]
    simp [Orm.finish, hzero, hprobe]
  · have hdepth : d.depth = u.base + 1 := by rw [h.depth_eq, hbase, List.length_cons]
    refine finish_of_commit (fun h => absurd h hzero) ?_
    rw [Driver.commit, if_neg (by omega), if_neg (by omega), Session.release_aborted _ hab]
    rfl

/-- What finishing the innermost unit comes to. The statements of an outermost unit that returns
`Ok` are durable, those of a nested one become its parent's; a unit that returns `Err` is undone. -/
theorem Holds.finish (h : Holds d (u :: units)) (hbase : u.base = units.length) (ok refused : Bool) :
    (∃ d', finish d u.base ok refused = (true, d') ∧ Holds d' (adopt u.stmts units) ∧
      d'.session.durable = d.session.durable ++ (if units = [] then u.stmts else []) ∧
      d'.closing = d.closing) ∨
    ∃ d', finish d u.base ok refused = (false, d') ∧ Holds d' units ∧ Untouched d d' := by
  have hundo : Holds (Orm.rollbackTo d u.base) units ∧ Untouched d (Orm.rollbackTo d u.base) :=
    (show Holds d ([u] ++ units) from h).rollbackTo hbase
  cases ok with
  | false => exact .inr ⟨_, rfl, hundo⟩
  | true =>
    cases hab : d.session.aborted with
    | true => exact .inr ⟨_, h.finish_aborted hbase refused hab, hundo⟩
    | false =>
      obtain ⟨hstacked, hdepth, halive⟩ := h
      rw [hab] at hstacked
      have hprobe : d.session.probe = true := by simp [Session.probe, hab, halive]
      cases units with
      | nil =>
        have hone : d.depth = 1 := hdepth
        have hzero : u.base = 0 := hbase
        cases refused with
        | true =>
          have hlevels : d.session.levels ≠ [] := by
            obtain ⟨l, rest, hlevels⟩ := hstacked.levels_cons
            simp [hlevels]
          have hcommit : d.commit true = (false, { d with session := d.session.discard }) := by
            rw [Driver.commit, if_neg (by omega), if_pos hone,
              Session.commit_refused halive hab hlevels]
            rfl
          refine .inr ⟨_, finish_of_commit (fun _ => hprobe) hcommit, ?_⟩
          rw [hzero]
          obtain ⟨hholds, hsame⟩ :=
            holds_rollbackTo_outermost (d := { d with session := d.session.discard }) hone halive
          exact ⟨hholds, ⟨hsame.durable, hsame.lost, hsame.closing⟩⟩
        | false =>
          let session : Session α := { d.session with
            levels := []
            durable := d.session.durable ++ u.stmts }
          have hcommit : d.commit false = (true, { d with session, depth := 0 }) := by
            rw [Driver.commit, if_neg (by omega), if_pos hone,
              Session.commit_accepted halive hab, hstacked.workOf_outermost]
            simp [hone, session]
          refine .inl ⟨_, finish_of_commit (fun _ => hprobe) hcommit, ⟨?_, rfl, halive⟩, ?_, rfl⟩
          · simpa [session, hab] using Stacked.nil
          · rfl
      | cons v units =>
        obtain ⟨stale, bottom, below, hfrom, habove, hbelow, -, hwork⟩ := hstacked.split (by simp)
        obtain ⟨l, rest, rfl⟩ := hbelow.levels_cons
        have hdepth' : d.depth - 1 = (v :: units).length := by rw [hdepth]; rfl
        let session : Session α := { d.session with
          levels := { l with work := l.work ++ u.stmts } :: rest }
        have hcommit : d.commit refused = (true, { d with session, depth := d.depth - 1 }) := by
          rw [Driver.commit, if_neg (by simp [hdepth]), if_neg (by simp [hdepth]), hdepth',
            Session.release_level halive hab hfrom, habove, hwork rfl]
          rfl
        refine .inl ⟨_, finish_of_commit (fun _ => hprobe) hcommit, ⟨?_, ?_, halive⟩, ?_, rfl⟩
        · simpa [session, hab] using hbelow.append u.stmts
        · simpa using hdepth'
        · simp [session]

end Backbone.Orm
