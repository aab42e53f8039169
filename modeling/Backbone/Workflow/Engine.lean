import Backbone.Workflow.Instance

/-!
# The engine's transactions

Reference: `backbone-core/src/workflow/engine.rs`.

Each definition here is the body of one write transaction (`in_write_tx`) of the engine on one
instance, from the row lock to the commit: it reads the instance as the lock shows it and answers the
instance as the commit leaves it, or the failure that rolls the transaction back.

What the body does not decide by itself comes from its environment `Env`: the two clocks, what the
expressions and templates evaluate to (they may call functions the workflow declares), what the
definition's `perform` answers and how long it takes, and whether staging an outbox row is refused. A
database error is not modelled here: it rolls the transaction back like a failure does, and is a step
of its own in `Backbone.Workflow.World`.
-/

namespace Backbone.Workflow

/-- How the engine paces retries and finds work nobody is driving. -/
structure EngineConfig where
  defaultAttempts : ℕ := 3
  /-- In microseconds. -/
  backoffBase : ℕ := 2000000
  backoffMax : ℕ := 300000000
  stallAfter : ℕ := 60000000
  maxSteps : ℤ := 5000

/-- An engine for one definition: the pacing, the definition's spec, and `serde_json`'s text of a
float. -/
structure Engine where
  cfg : EngineConfig := {}
  spec : WorkflowSpec
  floatText : UInt64 → String

/-! ## Failures -/

/-- The errors of an entity service. -/
inductive ServiceError where
  | notFound
  | alreadyExists (message : String)
  | validation (message : String)
  | violations (messages : List String)
  | repository (message : String)
  | internal (message : String)
deriving DecidableEq, Repr

/-- How a `ServiceError` displays. -/
def ServiceError.text : ServiceError → String
  | .notFound => "not found"
  | .alreadyExists m => "already exists: " ++ m
  | .validation m => "validation failed: " ++ m
  | .violations ms => "validation failed: " ++ String.intercalate "; " ms
  | .repository m => "repository error: " ++ m
  | .internal m => "internal error: " ++ m

inductive FailKind where
  | business | transient | timedOut
deriving DecidableEq, Repr

structure StepFailure where
  step : String
  kind : FailKind
  message : String
deriving DecidableEq, Repr

/-- `fail(step, FailKind::Business, message)`. -/
def failBusiness {α : Type} (step message : String) : Except StepFailure α :=
  .error ⟨step, .business, message⟩

def classify : ServiceError → FailKind
  | .notFound | .alreadyExists _ | .validation _ | .violations _ => .business
  | .repository _ | .internal _ => .transient

inductive StepEnd where
  | advanced | paused | finished | compensate
deriving DecidableEq, Repr

/-! ## The environment of a transaction -/

/-- Where in a transaction an expression is evaluated. Two evaluations of one transaction have
different sites, so one environment covers every answer of functions that keep state. -/
inductive Site where
  | guard | branch (i : ℕ) | key (i : ℕ) | cond | extract (i : ℕ)
  | param (i : ℕ) | set (i : ℕ) | id | result | emit | reason | timeout
deriving DecidableEq, Repr

/-- What a transaction finds around it. -/
structure Env where
  /-- The database's `now()`, fixed for the transaction. -/
  now : Time
  /-- The process clock, `Utc::now()`. -/
  clock : Time
  eval : Site → Expr → Scope → Except String Value
  render : Site → Tpl → Scope → Except String Value
  renderDuration : Site → Dur → Scope → Except String ℤ
  /-- What the definition answers a call with. -/
  perform : Call → Except ServiceError Value
  /-- How many seconds the answer takes. -/
  took : Call → ℕ
  /-- Whether staging an outbox row is accepted. -/
  stage : Staged → Except ServiceError Unit
  /-- Whether another transaction holds the row when `FOR UPDATE SKIP LOCKED` asks for it. -/
  locked : Bool

/-- `expr::eval` with its error as a business failure of `step`. -/
def Env.evalAt (env : Env) (site : Site) (step what : String) (e : Expr) (scope : Scope) :
    Except StepFailure Value :=
  match env.eval site e scope with
  | .ok v => .ok v
  | .error m => failBusiness step (what ++ ": " ++ m)

/-- `expr::holds` with its error as a business failure of `step`. -/
def Env.holdsAt (env : Env) (site : Site) (step what : String) (e : Expr) (scope : Scope) :
    Except StepFailure Bool :=
  match env.eval site e scope with
  | .ok v => .ok (truthy v)
  | .error m => failBusiness step (what ++ ": " ++ m)

/-- `expr::render` with its error as a business failure of `step`. -/
def Env.renderAt (env : Env) (site : Site) (step what : String) (t : Tpl) (scope : Scope) :
    Except StepFailure Value :=
  match env.render site t scope with
  | .ok v => .ok v
  | .error m => failBusiness step (what ++ ": " ++ m)

/-- `expr::render_duration` with its error as a business failure of `step`, in microseconds. -/
def Env.durationAt (env : Env) (step what : String) (d : Dur) (scope : Scope) :
    Except StepFailure ℤ :=
  match env.renderDuration .timeout d scope with
  | .ok secs => .ok (secs * 1000000)
  | .error m => failBusiness step (what ++ ": " ++ m)

/-- An optional part of a step: nothing when the spec does not name it. -/
def optional {α β : Type} (x : Option α) (f : α → Except StepFailure β) :
    Except StepFailure (Option β) :=
  match x with
  | some a => do pure (some (← f a))
  | none => pure none

/-- An optional condition holds when it is absent. -/
def Env.holdsIfAny (env : Env) (site : Site) (step what : String) (cond : Option Expr)
    (scope : Scope) : Except StepFailure Bool :=
  match cond with
  | some c => env.holdsAt site step what c scope
  | none => pure true

/-- What the expressions of an instance read. -/
def scopeOf (env : Env) (context event : Value) (log : List StepRow) : Scope where
  context := context
  event := event
  result := context.getOrNull "result"
  error := context.getOrNull "error"
  config := .null
  completed := completed log
  now := env.clock

/-! ## Outcomes and actions -/

/-- `apply_outcome`: the outcome's `set` written into a copy of the context, and the next step, which
must exist. -/
def applyOutcome (spec : WorkflowSpec) (env : Env) (step : String) (context : Value)
    (outcome : Outcome) (scope : Scope) (result : Option Value) :
    Except StepFailure (Value × String) := do
  let fields := match context with
    | .obj fields => fields
    | _ => []
  let fields := match result with
    | some r => Value.insertField fields "result" r
    | none => fields
  let sets ← outcome.set.zipIdx.mapM fun (kv, i) => do
    let v ← env.renderAt (.set i) step ("set `" ++ kv.1 ++ "`") kv.2 scope
    pure (kv.1, v)
  let fields := sets.foldl (fun fields kv => Value.insertField fields kv.1 kv.2) fields
  match outcome.next with
  | none => failBusiness step "the step names no next step"
  | some next =>
    if (spec.step next).isNone then
      failBusiness step ("the next step `" ++ next ++ "` does not exist")
    else pure (.obj fields, next)

/-- `render_params`. -/
def renderParams (env : Env) (step : String) (params : List (String × Tpl)) (scope : Scope) :
    Except StepFailure Value := do
  let fields ← params.zipIdx.mapM fun (kv, i) => do
    let v ← env.renderAt (.param i) step ("param `" ++ kv.1 ++ "`") kv.2 scope
    pure (kv.1, v)
  pure (.obj (fields.foldl (fun fields kv => Value.insertField fields kv.1 kv.2) []))

/-- `call_def`: the definition's answer, bounded by the step's `call_timeout`. -/
def callDef (env : Env) (step : StepSpec) (call : Call) : Except StepFailure Value :=
  let answer : Except StepFailure Value :=
    match env.perform call with
    | .ok v => .ok v
    | .error e => .error ⟨step.name, classify e, e.text⟩
  match step.callTimeout with
  | some secs =>
    if secs.toNat < env.took call then
      .error ⟨step.name, .timedOut,
        "`" ++ call.action ++ "` took longer than " ++ toString secs ++ "s"⟩
    else answer
  | none => answer

/-- `ctx.stage(..)` with its error as a failure of `step`. -/
def stageAt (env : Env) (step what : String) (s : Staged) : Except StepFailure Unit :=
  match env.stage s with
  | .ok () => .ok ()
  | .error e => .error ⟨step, classify e, what ++ ": " ++ e.text⟩

/-- The parameters of a notification that are not its template's own variables. -/
def reservedParams : List String := ["data", "template", "to", "recipients", "channel", "body"]

/-- The request a notification action stages. -/
def notificationOf (workflow step action : String) (params : Value) : NotificationRequested where
  channel := match action with
    | "send_email" => "email"
    | "send_sms" => "sms"
    | "send_notification" => "notify"
    | _ => ((params.get? "channel").bind Value.asStr).getD "notify"
  template := (params.get? "template").bind Value.asStr
  body := (params.get? "body").bind Value.asStr
  recipients := ((params.get? "to").or (params.get? "recipients")).getD .null
  data := match (params.get? "data").getD (.obj []), params with
    | .obj data, .obj all =>
      .obj (all.foldl (fun data kv =>
        if reservedParams.contains kv.1 || data.any (·.1 == kv.1) then data
        else Value.insertField data kv.1 kv.2) data)
    | data, _ => data
  trigger := workflow ++ "." ++ step

/-- `perform_action`: an engine action here, anything else through the definition. Answers the
step's result and what was done. -/
def performAction (e : Engine) (env : Env) (step : StepSpec) (action : String)
    (entity recordId verb : Option String) (params : Value) (row : InstanceRow) :
    Except StepFailure (Value × Effect) :=
  match action with
  | "audit_log" => .ok (.null, .audit params)
  | "emit_event" =>
    match (params.get? "event").bind Value.asStr with
    | none => failBusiness step.name "`emit_event` needs an `event` parameter"
    | some event => do
      let staged := Staged.event event (params.getOrNull "data")
      stageAt env step.name "emit_event" staged
      pure (.obj [("event", .str event)], .staged staged)
  | "send_email" | "notify" | "send_notification" | "send_sms" => do
    let staged := Staged.notification (notificationOf e.spec.name step.name action params)
    stageAt env step.name action staged
    pure (.null, .staged staged)
  | other => do
    let call : Call :=
      { step := step.name, action := other, entity, id := recordId, verb, params,
        context := row.context }
    let result ← callDef env step call
    pure (result, .performed call)

/-- The record an action is about: the rendered `id`, or `params.id`, unless it is null. -/
def recordIdOf (e : Engine) (env : Env) (step : String) (id : Option Tpl) (params : Value)
    (scope : Scope) : Except StepFailure (Option String) := do
  let rendered ← optional id fun t => env.renderAt .id step "id" t scope
  let v := if id.isSome then rendered else params.get? "id"
  pure ((v.filter (!·.isNull)).map (textOf e.floatText))

/-! ## `run_one` -/

/-- Where a skipped step goes. -/
def skipNext (step : StepSpec) (stepName : String) : Except StepFailure (Option String) :=
  match step.kind with
  | .action _ _ _ _ onSuccess _ => pure onSuccess.next
  | .transition _ _ _ _ onSuccess => pure onSuccess.next
  | _ => failBusiness stepName "only an action or a transition has a guard"

/-- The skip of a step whose guard does not hold. -/
def skipStep (e : Engine) (env : Env) (w : Instance) (seq : ℕ) (step : StepSpec) (stepName : String)
    (scope : Scope) : Except StepFailure (StepEnd × Instance) := do
  let next ← skipNext step stepName
  let (context, next) ←
    applyOutcome e.spec env stepName w.row.context { set := [], next } scope none
  pure (.advanced, (w.logStep seq stepName .skipped none).advance next context env.now)

/-- The first branch of a condition that is taken. -/
def takenBranch (env : Env) (stepName : String) (scope : Scope) :
    List (Branch × ℕ) → Except StepFailure (Option Branch)
  | [] => pure none
  | (branch, i) :: rest => do
    let taken ← env.holdsIfAny (.branch i) stepName "condition" branch.cond scope
    if taken then pure (some branch) else takenBranch env stepName scope rest

/-- The status a terminal step ends on. -/
def terminalStatus : Terminal → Status
  | .completed => .completed
  | .failed => .failed
  | .expired => .expired
  | .cancelled => .cancelled

/-- The part of `run_one` after the guard: what the step's kind does. -/
def performStep (e : Engine) (env : Env) (w : Instance) (seq : ℕ) (step : StepSpec)
    (stepName : String) (scope : Scope) : Except StepFailure (StepEnd × Instance) :=
  match step.kind with
  | .action action entity id params onSuccess _ => do
    let rendered ← renderParams env stepName params scope
    let recordId ← recordIdOf e env stepName id rendered scope
    let (result, effect) ← performAction e env step action entity recordId none rendered w.row
    let (context, next) ←
      applyOutcome e.spec env stepName w.row.context onSuccess { scope with result } (some result)
    pure (.advanced, ((w.execute ⟨stepName, false, effect⟩).logStep seq stepName .ok none).advance next
      context env.now)
  | .transition entity id verb params onSuccess => do
    let rendered ← renderParams env stepName params scope
    let recordId ← env.renderAt .id stepName "id" id scope
    if recordId.isNull then
      failBusiness stepName "the transition's id is empty"
    else do
      let call : Call :=
        { step := stepName, action := "transition", entity := some entity,
          id := some (textOf e.floatText recordId), verb := some verb, params := rendered,
          context := w.row.context }
      let result ← callDef env step call
      let (context, next) ←
        applyOutcome e.spec env stepName w.row.context onSuccess { scope with result } (some result)
      pure (.advanced, ((w.execute ⟨stepName, false, .performed call⟩).logStep seq stepName .ok none).advance
        next context env.now)
  | .condition branches => do
    match ← takenBranch env stepName scope branches.zipIdx with
    | none => failBusiness stepName "no branch of the condition holds and it has no else"
    | some branch =>
      let (context, next) ← applyOutcome e.spec env stepName w.row.context
        { set := branch.set, next := some branch.next } scope none
      pure (.advanced, (w.logStep seq stepName .ok none).advance next context env.now)
  | .wait event key timeout _ _ => do
    if !e.spec.persistence then
      failBusiness stepName "a workflow without persistence cannot wait"
    else do
      let waitKey? ← optional event fun _ => do
        let values ← key.zipIdx.mapM fun (k, i) =>
          env.evalAt (.key i) stepName "wait key" k.context scope
        pure (waitKey e.floatText values)
      let due ← optional timeout fun d => do
        pure (env.now + (← env.durationAt stepName "timeout" d scope))
      if event.isNone && due.isNone then
        failBusiness stepName "a wait names neither an event nor a timeout"
      else
        pure (.paused, (w.logStep seq stepName .waiting none).enterWait event waitKey? due env.now)
  | .terminal status reason emit compensate result => do
    let value ← optional result fun t => env.renderAt .result stepName "result" t scope
    let context := (value.map (w.row.context.insertIfObject "result")).getD w.row.context
    let emitted ← optional emit fun em => do
      let data ← env.renderAt .emit stepName "emit" em.data scope
      stageAt env stepName "emit" (.event em.event data)
      pure (Staged.event em.event data)
    let reasonText ← optional reason fun t => do
      pure (textOf e.floatText (← env.renderAt .reason stepName "reason" t scope))
    let compensating := compensate && status == .failed && !e.spec.compensation.isEmpty
    let finalStatus := if compensating then .compensating else terminalStatus status
    let staged := { w with emitted := w.emitted ++ emitted.toList }
    let logged := staged.logStep seq stepName .terminal
      (if status == .completed then none else reasonText)
    pure (if compensating then .compensate else .finished,
      logged.finish finalStatus stepName (if status == .failed then reasonText else none) context
        env.now)

/-- `run_one`: run the instance's current step. -/
def runOne (e : Engine) (env : Env) (w : Instance) : Except StepFailure (StepEnd × Instance) :=
  if w.row.status ≠ .running then pure (.paused, w)
  else
    match w.row.currentStep with
    | none => failBusiness "(none)" "the instance has no current step"
    | some stepName =>
      match e.spec.step stepName with
      | none => failBusiness stepName "the workflow has no such step"
      | some step => do
        let scope := scopeOf env w.row.context (w.row.context.getOrNull "_event") w.log
        let seq := nextSeq w.log
        -- A guard that does not hold skips the step.
        let holds ← env.holdsIfAny .guard stepName "guard" step.guard scope
        if holds then performStep e env w seq step stepName scope
        else skipStep e env w seq step stepName scope

/-! ## `after_failure` -/

/-- The wait before attempt `attempts + 1` of a step, in microseconds. -/
def backoffDelay (cfg : EngineConfig) (backoff : Backoff) (attempts : ℤ) : ℤ :=
  match backoff with
  | .fixed secs => max secs 0 * 1000000
  | .exponential => min (cfg.backoffBase * 2 ^ (attempts - 1).toNat) cfg.backoffMax

/-- `n as i32` of a `u32`. -/
def asI32 (n : ℕ) : ℤ := Int.bmod n (2 ^ 32)

/-- The policy of the step a failure names. -/
def policyOf (spec : WorkflowSpec) (step : String) : FailureSpec :=
  ((spec.step step).bind (·.onFailure)).getD {}

/-- The `on_timeout` of the action a failure names. -/
def onTimeoutOf (spec : WorkflowSpec) (step : String) : Option Outcome :=
  (spec.step step).bind fun s =>
    match s.kind with
    | .action _ _ _ _ _ onTimeout => onTimeout
    | _ => none

/-- The route of a business failure. -/
def FailureSpec.route (p : FailureSpec) : Option Outcome :=
  p.next.map fun n => { set := p.set, next := some n }

/-- The end of `after_failure`: take the route when there is one, else the instance fails, and
compensates what completed. -/
def routeFailure (e : Engine) (env : Env) (failure : StepFailure) (w : Instance)
    (route : Option Outcome) : Except StepFailure (StepEnd × Instance) :=
  let logged := w.logStep (nextSeq w.log) failure.step .failed (some failure.message)
  match route with
  | some outcome => do
    let context := w.row.context.insertIfObject "error" (.str failure.message)
    let scope := { scopeOf env context (w.row.context.getOrNull "_event") logged.log with
      error := .str failure.message }
    let (context, next) ← applyOutcome e.spec env failure.step context outcome scope none
    pure (.advanced, logged.advance next context env.now)
  | none =>
    let attempts := w.row.attempts + 1
    if e.spec.compensation.isEmpty then
      pure (.finished, logged.giveUp .failed attempts failure.message env.now)
    else
      pure (.compensate, logged.giveUp .compensating attempts failure.message env.now)

/-- A transient failure: run the step again after its backoff, until its attempts are used up. -/
def retryFailure (e : Engine) (env : Env) (failure : StepFailure) (w : Instance) :
    Except StepFailure (StepEnd × Instance) :=
  let policy := policyOf e.spec failure.step
  let retry := (policy.retry.or e.spec.retry).getD ⟨e.cfg.defaultAttempts, .exponential⟩
  let attempts := w.row.attempts + 1
  if attempts < asI32 retry.maxAttempts then
    let logged := w.logStep (nextSeq w.log) failure.step .failed (some failure.message)
    pure (.paused, logged.retryAt attempts failure.message
      (env.now + backoffDelay e.cfg retry.backoff attempts) env.now)
  else routeFailure e env failure w (policy.onExhausted.or policy.route)

/-- `after_failure`: a step's transaction rolled back; record the failure and decide: route, retry
later, or fail. A hand call that outlasted its step's timeout takes `on_timeout` when there is
one. -/
def afterFailure (e : Engine) (env : Env) (failure : StepFailure) (w : Instance) :
    Except StepFailure (StepEnd × Instance) :=
  if w.row.status ≠ .running then pure (.paused, w)
  else
    match failure.kind with
    | .timedOut =>
      if (onTimeoutOf e.spec failure.step).isSome then
        routeFailure e env failure w (onTimeoutOf e.spec failure.step)
      else retryFailure e env failure w
    | .business => routeFailure e env failure w (policyOf e.spec failure.step).route
    | .transient => retryFailure e env failure w

/-! ## Waits -/

/-- `leave_wait`: take a waiting instance out of its wait along `outcome`. -/
def leaveWait (e : Engine) (env : Env) (w : Instance) (stepName : String) (outcome : Outcome)
    (label : StepOutcome) (event : Option Value) : Except StepFailure Instance := do
  let scope := scopeOf env w.row.context (event.getD .null) w.log
  let (context, next) ← applyOutcome e.spec env stepName w.row.context outcome scope none
  let context := match event with
    | some payload => context.insertIfObject "_event" payload
    | none => context
  pure ((w.logStep (nextSeq w.log) stepName label none).leave next context env.now)

/-- An outbox record as the engine reads it. -/
structure OutboxRecord where
  id : Uuid
  eventType : String
  companyId : Uuid
  orgUnitId : Option Uuid
  payload : Value
  correlationId : Option String

/-- The event-side key of a wait: its key fields read from the payload. -/
def eventKey (e : Engine) (key : List WaitKey) (record : OutboxRecord) : String :=
  waitKey e.floatText (key.map fun k => record.payload.getOrNull k.eventField)

/-- The keys `resume` looks for: one for each wait of the record's event. -/
def resumeKeys (e : Engine) (record : OutboxRecord) : List String :=
  (e.spec.steps.filterMap fun s =>
    match s.kind with
    | .wait (some event) key _ _ _ =>
      if event == record.eventType then some (eventKey e key record) else none
    | _ => none).dedup

/-- The rows the `SELECT .. FOR UPDATE` of `resume` returns, as far as one row decides it (the row
level fence and the workflow's name are the caller's). -/
def resumeSelects (e : Engine) (record : OutboxRecord) (row : InstanceRow) : Bool :=
  row.status == .waiting && row.waitEvent == some record.eventType &&
    row.waitKey.any (resumeKeys e record).contains

/-- What `resume` does with one selected instance: nothing, unless the instance's own wait matches
the event. -/
def resumeOne (e : Engine) (env : Env) (record : OutboxRecord) (w : Instance) :
    Except StepFailure (Option Instance) :=
  match w.row.currentStep.bind e.spec.step with
  | none => pure none
  | some step =>
    match step.kind with
    | .wait _ key _ onEvent _ =>
      if w.row.waitKey ≠ some (eventKey e key record) then pure none
      else do
        let w' ← leaveWait e env w step.name (onEvent.getD {}) .resumed (some record.payload)
        pure (some w')
    | _ => pure none

/-! ## Compensation -/

/-- The part of `compensate_one` after its two checks: run the step if its condition holds. -/
def compensateBody (e : Engine) (env : Env) (comp : CompStep) (w : Instance) :
    Except StepFailure (Option Instance) := do
  let scope := scopeOf env w.row.context (w.row.context.getOrNull "_event") w.log
  let holds ← env.holdsIfAny .cond comp.label "condition" comp.cond scope
  if !holds then pure none
  else do
    let params ← renderParams env comp.label comp.params scope
    let recordId ← recordIdOf e env comp.label comp.id params scope
    let step : StepSpec :=
      { name := comp.label, kind := .action comp.action comp.entity none [] {} none }
    let (_, effect) ←
      performAction e env step comp.action comp.entity recordId comp.verb params w.row
    pure (some ((w.execute ⟨comp.label, true, effect⟩).logStep (nextSeq w.log) comp.label .compensated
      none))

/-- `compensate_one`: run one compensation step whose condition holds and which has not run. -/
def compensateOne (e : Engine) (env : Env) (comp : CompStep) (w : Instance) :
    Except StepFailure (Option Instance) :=
  match w.row.status with
  | .compensating | .failed | .compensated =>
    if hasRow w.log comp.label .compensated then pure none else compensateBody e env comp w
  | _ => pure none

/-- The transaction that records a compensation step's failure. -/
def recordCompensationFailure (comp : CompStep) (message : String) (w : Instance) : Instance :=
  w.logStep (nextSeq w.log) comp.label .compensationFailed (some message)

/-- The compensation steps that failed and were never compensated. -/
def pendingCompensations (log : List StepRow) : List String :=
  ((log.filter fun r => r.outcome == .compensationFailed && !hasRow log r.step .compensated).map
    (·.step)).dedup

/-- The final transaction of `compensate_company`, after this run's `failures`. -/
def closeCompensation (env : Env) (failures : List String) (w : Instance) : Instance :=
  match w.row.status with
  | .compensating | .failed =>
    let pending := pendingCompensations w.log
    if failures.isEmpty && pending.isEmpty then w.close .compensated none env.now
    else if !failures.isEmpty then
      w.close .failed (some ("compensation incomplete: " ++ String.intercalate "; " failures)) env.now
    else
      w.close .failed (some ("compensation incomplete: " ++ String.intercalate ", " pending)) env.now
  | _ => w

/-! ## The sweep, `cancel` -/

inductive Claim where
  | timedOut | expired | retry | recover | compensate
deriving DecidableEq, Repr

/-- `due_predicate`, on the database clock. -/
def due (cfg : EngineConfig) (now : Time) (row : InstanceRow) : Bool :=
  let past (t : Option Time) : Bool := t.any (· ≤ now)
  let stalled : Bool := row.updatedAt ≤ now - cfg.stallAfter
  match row.status with
  | .waiting => past row.waitDueAt || past row.deadlineAt
  | .running => past row.waitDueAt || (row.waitDueAt.isNone && stalled)
  | .compensating => stalled
  | _ => false

/-- `claim_due`: take a due instance, on the process clock. -/
def claimDue (e : Engine) (env : Env) (w : Instance) :
    Except StepFailure (Option (Claim × Instance)) :=
  if env.locked || !due e.cfg env.now w.row then pure none
  else
    match w.row.status with
    | .waiting =>
      if w.row.waitDueAt.any (· ≤ env.clock) then
        match w.row.currentStep.bind e.spec.step with
        | none => failBusiness "(sweep)" "a waiting instance's step is gone"
        | some step =>
          match step.kind with
          | .wait _ _ _ _ onTimeout => do
            let w' ← leaveWait e env w step.name (onTimeout.getD {}) .timedOut none
            pure (some (.timedOut, w'))
          | _ => failBusiness step.name "a waiting instance is not on a wait step"
      else
        pure (some (.expired,
          (w.logStep (nextSeq w.log) (w.row.currentStep.getD "(deadline)") .expired
            (some "the instance passed its deadline")).expire env.now))
    | .running =>
      pure (some (if w.row.waitDueAt.isSome then .retry else .recover, w.takeRunning env.now))
    | .compensating => pure (some (.compensate, w.touch env.now))
    | _ => pure none

/-- `cancel`: end an instance that has not ended. -/
def cancel (env : Env) (w : Instance) : Bool × Instance :=
  if w.row.isFinal then (false, w)
  else
    (true, (w.logStep (nextSeq w.log) (w.row.currentStep.getD "(cancel)") .cancelled
      none).markCancelled env.now)

/-! ## `start` -/

/-- `run_inline`: the body of a flow without persistence, every step in a savepoint of the
transaction that created the instance. A business failure with an `on_failure.next` goes there; any
other failure ends the flow. -/
def runInline (e : Engine) (envs : ℕ → Env) : ℕ → Instance → Except StepFailure Instance
  | 0, _ => failBusiness "(runaway)" "the flow did not end"
  | n + 1, w =>
    match runOne e (envs n) w with
    | .ok (.advanced, w') => runInline e envs n w'
    | .ok (_, w') => .ok w'
    | .error f =>
      match (policyOf e.spec f.step).next with
      | some next =>
        if f.kind = .business then
          let logged := w.logStep (nextSeq w.log) f.step .failed (some f.message)
          let context := w.row.context.insertIfObject "error" (.str f.message)
          -- The next step is not looked up here: `run_one` fails on it if it does not exist.
          runInline e envs n (logged.advance next context (envs n).now)
        else .error f
      | none => .error f

/-- `self.cfg.max_steps.max(1)`. -/
def Engine.maxSteps (e : Engine) : ℕ := (max e.cfg.maxSteps 1).toNat

/-- The row `start` inserts for `record`, under the fresh id `id`. -/
def startRow (e : Engine) (env : Env) (record : OutboxRecord) (id : Uuid) :
    Except StepFailure InstanceRow := do
  match e.spec.steps.head? with
  | none => failBusiness "start" ("workflow `" ++ e.spec.name ++ "` has no steps")
  | some first =>
    let initial := e.spec.context.foldl (fun fields kv => Value.insertField fields kv.1 kv.2) []
    let scope : Scope :=
      { context := .obj initial, event := record.payload, result := .null, error := .null,
        config := .null, completed := [], now := env.clock }
    let extracted ← e.spec.extract.zipIdx.mapM fun (kv, i) => do
      let v ← env.evalAt (.extract i) "start" ("extract `" ++ kv.1 ++ "`") kv.2 scope
      pure (kv.1, v)
    let context := extracted.foldl (fun fields kv => Value.insertField fields kv.1 kv.2) initial
    let deadline ← optional e.spec.timeout fun d => do
      pure (env.now + (← env.durationAt "start" "timeout" d scope))
    pure
      { id, workflow := e.spec.name, version := e.spec.version, companyId := record.companyId,
        orgUnitId := record.orgUnitId, status := .running, currentStep := some first.name,
        context := .obj (Value.insertField context "_event" record.payload),
        triggerEventId := record.id,
        correlationId := some (record.correlationId.getD (toString record.id)),
        deadlineAt := deadline, waitEvent := none, waitKey := none, waitDueAt := none,
        attempts := 0, lastError := none, createdAt := env.now, updatedAt := env.now }

/-- `start`: insert the instance, and run it to its end when the workflow has no persistence. -/
def start (e : Engine) (env : Env) (envs : ℕ → Env) (record : OutboxRecord) (id : Uuid) :
    Except StepFailure Instance := do
  let row ← startRow e env record id
  let w : Instance := ⟨row, [], [], []⟩
  if e.spec.persistence then pure w else runInline e envs e.maxSteps w

end Backbone.Workflow
