import Backbone.Lib.Run
import Backbone.Workflow.Moves

/-!
# One instance and everybody who works on it

Reference: `backbone-core/src/workflow/engine.rs` (`handle_event`, `run`, `drive`, `step_once`,
`fail_runaway`, `compensate_company`, `sweep_due`, `cancel`).

Any number of processes work on an instance at once. A process holds nothing between two
transactions but its place in the code, `Proc`; a transaction takes the row lock, so it is one atomic
step. `step` interleaves them: an action names the process that moves and carries what its
transaction finds around it, so a run of the engine is a list of actions and every interleaving is
one. A database error ends the process's call and rolls its transaction back; a crash forgets its
place, with or without the commit before it. A transaction that finds no row under the caller's
tenant (`StepEnd::Gone`) writes nothing and ends the call, as a crash does.
-/

namespace Backbone.Workflow

/-- Where a process is between two of its transactions. -/
inductive Proc where
  | idle
  /-- In `drive`, about to run `step_once` with `n` rounds of its loop left, this one included. -/
  | driving (n : ℕ)
  /-- In `step_once`, after `run_one` rolled back. -/
  | failed (n : ℕ) (failure : StepFailure)
  /-- In `drive`, after its last round: about to `fail_runaway`. -/
  | runaway
  /-- In `sweep_due`, with the instance among its candidates. -/
  | sweeping
  /-- In `compensate_company`, with the steps still to try and the failures so far. -/
  | compensating (rest : List CompStep) (failures : List String)
  /-- In `compensate_company`, about to record that `c` failed. -/
  | recording (c : CompStep) (message : String) (rest : List CompStep) (failures : List String)

/-- `drive`, entered. A workflow without persistence ran to its end when it started. -/
def Proc.drive (e : Engine) : Proc :=
  if e.spec.persistence then .driving e.maxSteps else .idle

/-- `compensate_company`, entered: last declared first. -/
def Proc.compensate (e : Engine) : Proc := .compensating e.spec.compensation.reverse []

/-- `drive`, after a `step_once` of a loop with `n` rounds left. -/
def Proc.afterStep (e : Engine) (n : ℕ) : StepEnd → Proc
  | .advanced => if n ≤ 1 then .runaway else .driving (n - 1)
  | .compensate => .compensate e
  | .paused | .finished => .idle

/-- `sweep_due`, after a claim. -/
def Proc.afterClaim (e : Engine) : Claim → Proc
  | .timedOut | .retry | .recover => .drive e
  | .expired => .idle
  | .compensate => .compensate e

/-- The failure `fail_runaway` reports. -/
def runawayFailure (e : Engine) : StepFailure where
  step := "(runaway)"
  kind := .business
  message := "more than " ++ toString e.cfg.maxSteps ++
    " steps ran without the instance pausing or ending"

/-- How `compensate_company` goes on after the failure of `c`. -/
def Proc.afterRecord (c : CompStep) (message : String) (rest : List CompStep)
    (failures : List String) : Proc :=
  .compensating rest (failures ++ [c.name ++ ": " ++ message])

/-- The next transaction of a process: where it goes on, and the instance it leaves. -/
def Proc.txn (e : Engine) (env : Env) (w : Instance) : Proc → Proc × Instance
  | .idle => (.idle, w)
  | .driving n =>
    match runOne e env w with
    | .ok (last, w') => (.afterStep e n last, w')
    | .error f => (.failed n f, w)
  | .failed n f =>
    match afterFailure e env f w with
    | .ok (last, w') => (.afterStep e n last, w')
    | .error _ => (.idle, w)
  | .runaway =>
    match afterFailure e env (runawayFailure e) w with
    | .ok (.compensate, w') => (.compensate e, w')
    | .ok (_, w') => (.idle, w')
    | .error _ => (.idle, w)
  | .sweeping =>
    match claimDue e env w with
    | .ok (some (claim, w')) => (.afterClaim e claim, w')
    | _ => (.idle, w)
  | .compensating [] failures => (.idle, closeCompensation env failures w)
  | .compensating (c :: rest) failures =>
    match compensateOne e env c w with
    | .ok (some w') => (.compensating rest failures, w')
    | .ok none => (.compensating rest failures, w)
    | .error f => (.recording c f.message rest failures, w)
  | .recording c message rest failures =>
    (.afterRecord c message rest failures, recordCompensationFailure c message w)

/-- A process whose transaction met a database error. The record of a compensation failure is the one
transaction whose error is dropped. -/
def Proc.onDbError : Proc → Proc
  | .recording c message rest failures => .afterRecord c message rest failures
  | _ => .idle

/-- The instance, once it is started, and the processes. -/
structure World where
  inst : Option Instance
  procs : ℕ → Proc

/-- Before the triggering event. -/
def World.init : World := ⟨none, fun _ => .idle⟩

inductive Act where
  /-- The transaction of `start`. -/
  | start (env : Env) (envs : ℕ → Env) (record : OutboxRecord) (id : Uuid)
  /-- The transaction of `resume`, as far as it is about this instance; `p` drives it on. -/
  | resume (p : ℕ) (env : Env) (record : OutboxRecord)
  /-- `drive` is called: by `run`, or by `on_event` for an instance it started. -/
  | run (p : ℕ)
  /-- A sweep comes to this instance. -/
  | sweep (p : ℕ)
  /-- The public `compensate` is called. -/
  | compensate (p : ℕ)
  /-- The transaction of `cancel`. -/
  | cancel (env : Env)
  /-- The next transaction of `p`. -/
  | txn (p : ℕ) (env : Env)
  /-- The next transaction of `p` meets a database error. -/
  | dbError (p : ℕ)
  | crash (p : ℕ)

/-- Process `p` goes on as `x`. -/
def World.setProc (W : World) (p : ℕ) (x : Proc) : World :=
  { W with procs := Function.update W.procs p x }

/-- A call of an idle process on an instance that exists. -/
def World.call (W : World) (p : ℕ) (x : Proc) : World :=
  match W.procs p, W.inst with
  | .idle, some _ => W.setProc p x
  | _, _ => W

/-- The `resume` of an idle process. -/
def World.resume (e : Engine) (W : World) (p : ℕ) (env : Env) (record : OutboxRecord) : World :=
  match W.procs p, W.inst with
  | .idle, some w =>
    if resumeSelects e record w.row then
      match resumeOne e env record w with
      | .ok (some w') => { W with inst := some w' }.setProc p (.drive e)
      | _ => W
    else W
  | _, _ => W

/-- One atomic step. -/
def World.step (e : Engine) (W : World) : Act → World
  | .start env envs record id =>
    match W.inst, start e env envs record id with
    | none, .ok w => { W with inst := some w }
    | _, _ => W
  | .resume p env record => W.resume e p env record
  | .run p => W.call p (.drive e)
  | .sweep p => W.call p .sweeping
  | .compensate p => W.call p (.compensate e)
  | .cancel env => { W with inst := W.inst.map fun w => (cancel env w).2 }
  | .txn p env =>
    match W.inst with
    | some w =>
      let r := (W.procs p).txn e env w
      { W with inst := some r.2 }.setProc p r.1
    | none => W
  | .dbError p => W.setProc p (W.procs p).onDbError
  | .crash p => W.setProc p .idle

/-- The state a list of actions leads to. -/
def World.after (e : Engine) (as : List Act) : World := Machine.run (World.step e) .init as

/-! ## A workflow to run

An order reserves its stock, waits for the payment and ships; a refused reservation rejects the order
and releases the stock. -/

/-- Surroundings where nothing goes wrong: every call answers null. -/
def Env.calm : Env where
  now := 0
  clock := 0
  eval := fun _ _ _ => .ok .null
  render := fun _ _ _ => .ok .null
  renderDuration := fun _ _ _ => .ok 0
  perform := fun _ => .ok .null
  took := fun _ => 0
  stage := fun _ => .ok ()
  locked := false

/-- Surroundings where the definition refuses every call. -/
def Env.refusing : Env := { Env.calm with perform := fun _ => .error (.validation "no stock") }

def orderSpec : WorkflowSpec where
  name := "order"
  triggerEvent := "OrderPlaced"
  steps := [
    { name := "reserve", kind := .action "reserve" none none [] { next := some "payment" } none,
      onFailure := some { next := some "rejected" } },
    { name := "payment",
      kind := .wait (some "PaymentReceived") [⟨"orderId", .path .context [.key "orderId"]⟩] none
        (some { next := some "ship" }) none },
    { name := "ship", kind := .action "ship" none none [] { next := some "done" } none },
    { name := "done", kind := .terminal .completed none none false none },
    { name := "rejected", kind := .terminal .failed none none true none }]
  compensation := [{ name := "release", action := "release" }]

def orders : Engine where
  spec := orderSpec
  floatText := fun _ => ""

def orderPlaced : OutboxRecord where
  id := 1
  eventType := "OrderPlaced"
  companyId := 7
  orgUnitId := none
  payload := .obj []
  correlationId := none

/-- The start of an order. -/
def Act.placeOrder : Act := .start .calm (fun _ => .calm) orderPlaced 100

/-! ## What a step does to the instance -/

/-- What one step of the world that handles `r` does to the stored instance. -/
inductive Commit (e : Engine) (r : Report) : Option Instance → Option Instance → Prop where
  | same (i : Option Instance) : Commit e r i i
  | move {w w' : Instance} (m : Move e.spec w r w') : Commit e r (some w) (some w')
  | born {env : Env} {envs : ℕ → Env} {record : OutboxRecord} {id : Uuid} {w : Instance}
      (h : start e env envs record id = .ok w) : Commit e r none (some w)

section

variable {e : Engine} {env : Env} {w : Instance} (W : World) (p : ℕ)
  (x : Proc) (record : OutboxRecord)

/-- What the process's next transaction handles. -/
def Proc.reported (e : Engine) : Proc → Report
  | .failed _ failure => .failure failure.step
  | .runaway => .failure (runawayFailure e).step
  | .recording c _ _ _ => .compensation c
  | _ => .nothing

/-- What the action handles. -/
def Act.reported (e : Engine) (W : World) : Act → Report
  | .txn p _ => (W.procs p).reported e
  | .resume _ _ _ => .event
  | _ => .nothing

/-- A transaction leaves the instance alone or makes one move. -/
theorem Proc.txn_move : (x.txn e env w).2 = w ∨ Move e.spec w (x.reported e) (x.txn e env w).2 := by
  cases x with
  | idle => exact .inl rfl
  | driving n =>
    simp only [Proc.txn]
    cases h : runOne e env w with
    | error f => exact .inl rfl
    | ok r =>
      rcases runOne_move h with ⟨hw, -⟩ | ⟨-, m, -⟩
      · exact .inl hw
      · exact .inr m
  | failed n f =>
    simp only [Proc.txn]
    cases h : afterFailure e env f w with
    | error f => exact .inl rfl
    | ok r =>
      rcases afterFailure_move h with ⟨hw, -⟩ | ⟨m, -⟩
      · exact .inl hw
      · exact .inr m
  | runaway =>
    simp only [Proc.txn]
    cases h : afterFailure e env (runawayFailure e) w with
    | error f => exact .inl rfl
    | ok r =>
      obtain ⟨last, w'⟩ := r
      have hmove := afterFailure_move h
      cases last <;> exact hmove.imp (·.1) (·.1)
  | sweeping =>
    simp only [Proc.txn]
    cases h : claimDue e env w with
    | error f => exact .inl rfl
    | ok r =>
      cases r with
      | none => exact .inl rfl
      | some r => exact .inr (claimDue_move h)
  | compensating rest failures =>
    cases rest with
    | nil => exact closeCompensation_move failures
    | cons c rest =>
      simp only [Proc.txn]
      cases h : compensateOne e env c w with
      | error f => exact .inl rfl
      | ok r =>
        cases r with
        | none => exact .inl rfl
        | some w' => exact .inr (compensateOne_move h)
  | recording c message rest failures => exact .inr (.compensationFailed c message)

@[simp] theorem World.setProc_inst : (W.setProc p x).inst = W.inst :=
  rfl

@[simp] theorem World.call_inst : (W.call p x).inst = W.inst := by
  unfold World.call
  split <;> rfl

/-- An event leaves the world alone, or resumes the waiting instance and starts to drive it. -/
theorem World.resume_cases :
    W.resume e p env record = W ∨ ∃ w w', W.inst = some w ∧ w.row.status = .waiting ∧
      resumeOne e env record w = .ok (some w') ∧
      W.resume e p env record = { W with inst := some w' }.setProc p (.drive e) := by
  unfold World.resume
  split
  · rename_i w _ hw
    split
    · rename_i hsel
      have waiting : w.row.status = .waiting := by
        simp only [resumeSelects, Bool.and_eq_true, beq_iff_eq] at hsel
        exact hsel.1.1
      split
      · rename_i w' hres
        exact .inr ⟨w, w', hw, waiting, hres, rfl⟩
      · exact .inl rfl
    · exact .inl rfl
  · exact .inl rfl

theorem World.resume_commit : Commit e .event W.inst (W.resume e p env record).inst := by
  have hcases : W.resume e p env record = W ∨ _ := W.resume_cases p record
  rcases hcases with h | ⟨w, w', hw, waiting, hres, h⟩
  · rw [h]
    exact .same _
  · rw [h, hw]
    exact .move (resumeOne_ok waiting hres).1

/-- Every step of the world leaves the instance alone, moves it, or creates it. -/
theorem World.step_commit (a : Act) : Commit e (a.reported e W) W.inst (W.step e a).inst := by
  cases a with
  | start env envs record id =>
    simp only [World.step]
    split
    · rename_i w hnone hstart
      rw [hnone]
      exact .born hstart
    · exact .same _
  | resume p env record => exact W.resume_commit p record
  | run p => rw [World.step, World.call_inst]; exact .same _
  | sweep p => rw [World.step, World.call_inst]; exact .same _
  | compensate p => rw [World.step, World.call_inst]; exact .same _
  | cancel env =>
    simp only [World.step]
    cases hw : W.inst with
    | none => exact .same _
    | some w =>
      rcases cancel_move e.spec env w with h | h
      · rw [Option.map_some, h]; exact .same _
      · exact .move h
  | txn p env =>
    simp only [World.step]
    cases hw : W.inst with
    | none => simp only [hw]; exact .same _
    | some w =>
      have hmove : ((W.procs p).txn e env w).2 = w ∨
          Move e.spec w ((W.procs p).reported e) ((W.procs p).txn e env w).2 :=
        Proc.txn_move (W.procs p)
      rcases hmove with h | h
      · simp only [World.setProc_inst, h]; exact .same _
      · exact .move h
  | dbError p => exact .same _
  | crash p => exact .same _

/-- A law of the stored instance that holds when it is created and that every move keeps holds in
every reachable state. -/
theorem World.inst_invariant {I : Instance → Prop}
    (born : ∀ {env envs record id w}, start e env envs record id = .ok w → I w)
    (move : ∀ {r w w'}, I w → Move e.spec w r w' → I w') (as : List Act) :
    ∀ w, (World.after e as).inst = some w → I w := by
  refine Machine.invariant_run (World.step e) (I := fun W => ∀ w, W.inst = some w → I w) ?_ as
    (by simp [World.init])
  intro W a hI w' hw'
  have hc := W.step_commit (e := e) a
  cases hW : W.inst with
  | none =>
    rw [hW, hw'] at hc
    cases hc with
    | born h => exact born h
  | some w =>
    rw [hW, hw'] at hc
    cases hc with
    | same => exact hI _ hW
    | move m => exact move (hI _ hW) m

/-- A reflexive and transitive relation that holds across every move holds between two states of an
instance in a run. -/
theorem World.inst_rel {R : Instance → Instance → Prop} (refl : ∀ w, R w w)
    (trans : ∀ {w₁ w₂ w₃}, R w₁ w₂ → R w₂ w₃ → R w₁ w₃) (move : ∀ {r w w'}, Move e.spec w r w' → R w w')
    (as bs : List Act) (h : (World.after e as).inst = some w) :
    ∃ w', (World.after e (as ++ bs)).inst = some w' ∧ R w w' := by
  rw [World.after, Machine.run_append]
  refine Machine.rel_run (World.step e)
    (R := fun W W' => ∀ w, W.inst = some w → ∃ w', W'.inst = some w' ∧ R w w') ?_ ?_ ?_ _ bs w h
  · exact fun W w hw => ⟨w, hw, refl w⟩
  · intro W₁ W₂ W₃ h₁ h₂ w hw
    obtain ⟨w₂, hw₂, hl⟩ := h₁ w hw
    obtain ⟨w₃, hw₃, hl'⟩ := h₂ w₂ hw₂
    exact ⟨w₃, hw₃, trans hl hl'⟩
  · intro W a w hw
    have hc := W.step_commit (e := e) a
    rw [hw] at hc
    cases hnext : (W.step e a).inst with
    | none => rw [hnext] at hc; cases hc
    | some w' =>
      rw [hnext] at hc
      cases hc with
      | same => exact ⟨_, rfl, refl _⟩
      | move m => exact ⟨_, rfl, move m⟩

end

end Backbone.Workflow
