import Backbone.Workflow.Drivers

/-!
# A flow run inline and the flow driven step by step

A workflow without persistence runs to its end inside the transaction that starts it, each step in a
savepoint: `run_inline`. With persistence `drive` runs one step to a transaction, and a step's failure
is handled by `after_failure`. Both run the same `run_one`; a failure they route each in its own way.
`run_inline` writes `error` into the context and goes to the policy's `next`; it does not apply the
policy's `set`, which `after_failure` does.

Reference: `backbone-core/src/workflow/engine.rs` (`run_inline`, `drive`, `step_once`).
-/

namespace Backbone.Workflow

/-! ## The two executors -/

/-- The engine for the same workflow, with or without persistence. -/
def Engine.withPersistence (e : Engine) (persistence : Bool) : Engine :=
  { e with spec := { e.spec with persistence } }

/-- `step_once`: `run_one`, and `after_failure` if it rolled back. -/
def stepOnce (e : Engine) (env failureEnv : Env) (w : Instance) :
    Except StepFailure (StepEnd × Instance) :=
  match runOne e env w with
  | .ok r => .ok r
  | .error f => afterFailure e failureEnv f w

/-- `drive`, up to the compensation of an instance that ends for it: at most `n` rounds of
`step_once`, then `fail_runaway`. -/
def drive (e : Engine) (envs failureEnvs : ℕ → Env) : ℕ → Instance →
    Except StepFailure (StepEnd × Instance)
  | 0, w => afterFailure e (failureEnvs 0) (runawayFailure e) w
  | n + 1, w =>
    match stepOnce e (envs n) (failureEnvs (n + 1)) w with
    | .ok (.advanced, w') => drive e envs failureEnvs n w'
    | .ok (last, w') => .ok (last, w')
    | .error f => .error f

/-- The instance after `run_inline` has routed a failure to `next`. -/
def routeInline (env : Env) (f : StepFailure) (next : String) (w : Instance) : Instance :=
  (w.logStep (nextSeq w.log) f.step .failed (some f.message)).advance next
    (w.row.context.insertIfObject "error" (.str f.message)) env.now

/-- The flow ends within `n` rounds, and each failure on its way is a business failure of a step with
a policy that goes to an existing step, and meets `C`. -/
def Routed (e : Engine) (envs : ℕ → Env) (C : StepFailure → Prop) : ℕ → Instance → Prop
  | 0, _ => False
  | n + 1, w =>
    match runOne e (envs n) w with
    | .ok (.advanced, w') => Routed e envs C n w'
    | .ok _ => True
    | .error f => f.kind = .business ∧ C f ∧
      match (policyOf e.spec f.step).next with
      | some next => (e.spec.step next).isSome ∧ Routed e envs C n (routeInline (envs n) f next w)
      | none => False

def StepKind.isWait : StepKind → Bool
  | .wait .. => true
  | _ => false

/-- Nothing is set when the failure is routed. -/
def SetsNothing (spec : WorkflowSpec) (f : StepFailure) : Prop := (policyOf spec f.step).set = []

/-- Both executions end, on the same status, context and step log. -/
def Agree (inline : Except StepFailure Instance) (driven : Except StepFailure (StepEnd × Instance)) :
    Prop :=
  ∃ w last w', inline = .ok w ∧ driven = .ok (last, w') ∧ w'.row.status = w.row.status ∧
    w'.row.context = w.row.context ∧ w'.log = w.log

/-! ## Steps that do not see the difference -/

/-- The same instance but for the time of its last update. -/
def Instance.stamp (w : Instance) (t : Time) : Instance :=
  { w with row := { w.row with updatedAt := t } }

/-- Two answers of `run_one` that differ in the time of the last update only; on the way the context
stays an object. -/
def SameStep (r r' : StepEnd × Instance) : Prop :=
  (∃ t, r' = (r.1, r.2.stamp t)) ∧ (r.1 = .advanced → r.2.row.context.isObject = true)

section

variable {e : Engine} {env : Env} {w : Instance} {scope : Scope} {stepName : String}
  {seq : ℕ} {step : StepSpec} (b : Bool) (t : Time) (u : Time)

theorem skipStep_related :
    Related SameStep (skipStep e env w seq step stepName scope)
      (skipStep (e.withPersistence b) { env with now := t } (w.stamp u) seq step stepName scope) := by
  unfold skipStep
  refine .bind fun next _ => .bind fun p hp => .pure ⟨⟨t, rfl⟩, fun _ => ?_⟩
  exact (applyOutcome_ok hp).2.2

theorem takenBranch_now (branches : List (Branch × ℕ)) :
    takenBranch { env with now := t } stepName scope branches
      = takenBranch env stepName scope branches := by
  induction branches with
  | nil => rfl
  | cons branch rest ih =>
    unfold takenBranch
    rw [ih]
    rfl

theorem performStep_related (hkind : step.kind.isWait = false) :
    Related SameStep (performStep e env w seq step stepName scope)
      (performStep (e.withPersistence b) { env with now := t } (w.stamp u) seq step stepName scope) := by
  unfold performStep
  cases hstep : step.kind with
  | action action entity id params onSuccess onTimeout =>
    refine .bind fun rendered _ => .bind fun recordId _ => .bind fun answer _ => .bind fun p hp => ?_
    exact .pure ⟨⟨t, rfl⟩, fun _ => (applyOutcome_ok hp).2.2⟩
  | transition entity id verb params onSuccess =>
    refine .bind fun rendered _ => .bind fun recordId _ => .ite (.error _) ?_
    refine .bind fun result _ => .bind fun p hp => ?_
    exact .pure ⟨⟨t, rfl⟩, fun _ => (applyOutcome_ok hp).2.2⟩
  | condition branches =>
    dsimp only
    rw [takenBranch_now t]
    refine .bind fun taken _ => ?_
    cases taken with
    | none => exact .error _
    | some branch =>
      exact .bind fun p hp => .pure ⟨⟨t, rfl⟩, fun _ => (applyOutcome_ok hp).2.2⟩
  | wait event key timeout onEvent onTimeout =>
    rw [hstep] at hkind
    cases hkind
  | terminal status reason emit compensate result =>
    refine .bind fun value _ => .bind fun emitted _ => .bind fun reasonText _ => .pure ?_
    refine ⟨⟨t, rfl⟩, fun hadvanced => ?_⟩
    dsimp only at hadvanced
    split at hadvanced <;> cases hadvanced

/-- `run_one` of a step that is no wait: the time of the transaction and the workflow's persistence
leave their mark on the row's time only. -/
theorem runOne_related (hwaits : ∀ s ∈ e.spec.steps, s.kind.isWait = false)
    (hobject : w.row.context.isObject = true) :
    Related SameStep (runOne e env w)
      (runOne (e.withPersistence b) { env with now := t } (w.stamp u)) := by
  unfold runOne
  refine .ite (.pure ⟨⟨u, rfl⟩, fun _ => hobject⟩) ?_
  have hcurrent : (w.stamp u).row.currentStep = w.row.currentStep := rfl
  have hfound : ∀ name, (e.withPersistence b).spec.step name = e.spec.step name := fun _ => rfl
  simp only [hcurrent, hfound]
  cases w.row.currentStep with
  | none => exact .error _
  | some stepName =>
    simp only
    cases hstep : e.spec.step stepName with
    | none => exact .error _
    | some step =>
      refine .bind fun holds _ => ?_
      have hkind := hwaits step (List.mem_of_find?_eq_some hstep)
      exact .ite (performStep_related b t u hkind) (skipStep_related b t u)

/-- `after_failure` of a routed business failure that sets nothing is the route of `run_inline`. -/
theorem afterFailure_routed {f : StepFailure} {next : String} (running : w.row.status = .running)
    (business : f.kind = .business) (policy : (policyOf e.spec f.step).next = some next)
    (found : (e.spec.step next).isSome = true) (hset : SetsNothing e.spec f)
    (hobject : w.row.context.isObject = true) :
    afterFailure e env f w = .ok (.advanced, routeInline env f next w) := by
  have hcontext : ∃ fields, w.row.context = .obj fields := by
    cases hw : w.row.context with
    | obj fields => exact ⟨fields, rfl⟩
    | _ =>
      rw [hw] at hobject
      cases hobject
  obtain ⟨fields, hfields⟩ := hcontext
  have hroute : (policyOf e.spec f.step).route = some { set := [], next := some next } := by
    unfold FailureSpec.route
    rw [policy, hset]
    rfl
  have hnone : (e.spec.step next).isNone = false := by
    rw [Option.isNone_eq_false_iff]
    exact found
  unfold afterFailure
  rw [if_neg (not_not_intro running), business]
  simp only [hroute, routeFailure, applyOutcome, hfields, Value.insertIfObject, List.zipIdx_nil,
    List.mapM_nil, pure_bind, List.foldl_nil, hnone, Bool.false_eq_true, if_false, routeInline]
  rfl

end

/-! ## Runs -/

section

variable {e : Engine} {envs failureEnvs : ℕ → Env} {nows : ℕ → Time}

/-- Round for round the two executors leave the same instance. -/
theorem runInline_related (hwaits : ∀ s ∈ e.spec.steps, s.kind.isWait = false) {n : ℕ}
    {w : Instance} (u : Time) (hobject : w.row.context.isObject = true)
    (hrouted : Routed e envs (SetsNothing e.spec) n w) :
    ∃ w' last t, runInline e envs n w = .ok w' ∧
      drive (e.withPersistence true) (fun i => { envs i with now := nows i }) failureEnvs n
        (w.stamp u) = .ok (last, w'.stamp t) := by
  induction n generalizing w u with
  | zero => exact hrouted.elim
  | succ n ih =>
    have hstep : Related SameStep (runOne e (envs n) w)
        (runOne (e.withPersistence true) { envs n with now := nows n } (w.stamp u)) :=
      runOne_related true (nows n) u hwaits hobject
    rw [Routed] at hrouted
    rw [runInline, drive, stepOnce]
    cases hone : runOne e (envs n) w with
    | ok r =>
      obtain ⟨last, w'⟩ := r
      rw [hone] at hstep hrouted
      generalize hdriven : runOne (e.withPersistence true) { envs n with now := nows n } (w.stamp u)
        = driven at hstep
      cases hstep with
      | @ok _ r' hsame =>
        obtain ⟨⟨t, rfl⟩, hcontext⟩ := hsame
        cases last with
        | advanced => exact ih t (hcontext rfl) hrouted
        | paused => exact ⟨w', .paused, t, rfl, rfl⟩
        | finished => exact ⟨w', .finished, t, rfl, rfl⟩
        | compensate => exact ⟨w', .compensate, t, rfl, rfl⟩
    | error f =>
      rw [hone] at hstep hrouted
      generalize hdriven : runOne (e.withPersistence true) { envs n with now := nows n } (w.stamp u)
        = driven at hstep
      cases hstep with
      | error =>
        obtain ⟨hbusiness, hset, hroute⟩ := hrouted
        cases hnext : (policyOf e.spec f.step).next with
        | none =>
          rw [hnext] at hroute
          exact hroute.elim
        | some next =>
          rw [hnext] at hroute
          have hafter : afterFailure (e.withPersistence true) (failureEnvs (n + 1)) f (w.stamp u)
              = .ok (.advanced, routeInline (failureEnvs (n + 1)) f next (w.stamp u)) :=
            afterFailure_routed (e := e.withPersistence true) (w := w.stamp u) (runOne_error hone).1
              hbusiness hnext hroute.1 hset hobject
          have hobject' : (routeInline (envs n) f next w).row.context.isObject = true := by
            change (w.row.context.insertIfObject "error" (.str f.message)).isObject = true
            cases hw : w.row.context with
            | obj fields => rfl
            | _ =>
              rw [hw] at hobject
              cases hobject
          obtain ⟨w', last, t, hinline, hdrive⟩ :=
            ih (failureEnvs (n + 1)).now hobject' hroute.2
          refine ⟨w', last, t, ?_, ?_⟩
          · simp only [hnext, if_pos hbusiness]
            exact hinline
          · simp only [hafter]
            exact hdrive

/-- A fresh instance starts with an object. -/
theorem startRow_isObject {env : Env} {record : OutboxRecord} {id : Uuid} {row : InstanceRow}
    (h : startRow e env record id = .ok row) : row.context.isObject = true := by
  unfold startRow at h
  cases hs : e.spec.steps with
  | nil => simp [hs, failBusiness] at h
  | cons first rest =>
    simp only [hs, List.head?_cons, bind_eq_ok, pure_eq_ok] at h
    obtain ⟨extracted, -, deadline, -, rfl⟩ := h
    rfl

/-- A workflow without wait steps whose failures are all routed, by policies that set nothing, ends
the same without persistence as it does driven step by step. -/
theorem inline_agrees_with_drive (hwaits : ∀ s ∈ e.spec.steps, s.kind.isWait = false) {env : Env}
    {record : OutboxRecord} {id : Uuid} {w : Instance}
    (hstart : start (e.withPersistence true) env envs record id = .ok w)
    (hrouted : Routed (e.withPersistence false) envs (SetsNothing e.spec) e.maxSteps w) :
    Agree (start (e.withPersistence false) env envs record id)
      (drive (e.withPersistence true) (fun i => { envs i with now := nows i }) failureEnvs e.maxSteps
        w) := by
  unfold start at hstart ⊢
  rw [bind_eq_ok] at hstart
  obtain ⟨row, hrow, hw⟩ := hstart
  obtain rfl : (⟨row, [], [], []⟩ : Instance) = w := Except.ok.inj hw
  have hobject : row.context.isObject = true := startRow_isObject hrow
  obtain ⟨w', last, t, hinline, hdrive⟩ : ∃ w' last t,
      runInline (e.withPersistence false) envs e.maxSteps ⟨row, [], [], []⟩ = .ok w' ∧
      drive (e.withPersistence true) (fun i => { envs i with now := nows i }) failureEnvs
        e.maxSteps (⟨row, [], [], []⟩ : Instance) = .ok (last, w'.stamp t) :=
    runInline_related (e := e.withPersistence false) hwaits row.updatedAt hobject hrouted
  have hrow' : startRow (e.withPersistence false) env record id = .ok row := hrow
  refine ⟨w', last, w'.stamp t, ?_, hdrive, rfl, rfl, rfl⟩
  rw [hrow']
  exact hinline

end

/-! ## What the inline route leaves out -/

/-- A ticket whose verb may be refused; the refusal is routed to the end of the flow. -/
def ticketFlow (set : List (String × Tpl)) : Engine where
  spec := {
    name := "ticket"
    triggerEvent := "TicketRouted"
    steps := [
      { name := "verb", kind := .action "close" none none [] { next := some "done" } none,
        onFailure := some { next := some "done", set } },
      { name := "done", kind := .terminal .completed none none false none }] }
  floatText := fun _ => ""

/-- Surroundings where the definition refuses every call and a literal renders as itself. -/
def Env.refusingLiteral : Env :=
  { Env.refusing with
    render := fun _ t _ =>
      match t with
      | .lit v => .ok v
      | _ => .ok .null }

def ticketRouted : OutboxRecord where
  id := 1
  eventType := "TicketRouted"
  companyId := 7
  orgUnitId := none
  payload := .obj []
  correlationId := none

/-- A refusal routed by a policy that sets nothing. -/
theorem inline_agrees_with_drive_ticket :
    let e := ticketFlow []
    ∃ w, start (e.withPersistence true) .refusingLiteral (fun _ => .refusingLiteral) ticketRouted 100
        = .ok w ∧
      Agree (start (e.withPersistence false) .refusingLiteral (fun _ => .refusingLiteral)
          ticketRouted 100)
        (drive (e.withPersistence true) (fun i => { Env.refusingLiteral with now := i })
          (fun _ => .refusingLiteral) e.maxSteps w) := by
  intro e
  refine ⟨_, rfl, inline_agrees_with_drive (e := e) (by decide) rfl ?_⟩
  exact ⟨rfl, rfl, rfl, trivial⟩

/-- A refusal routed by a policy that sets a key: inline, the key is not set. -/
theorem inline_drops_failure_set :
    let e := ticketFlow [("recovered_from", .lit (.str "refusal"))]
    ∃ w, start (e.withPersistence true) .refusingLiteral (fun _ => .refusingLiteral) ticketRouted 100
        = .ok w ∧
      Routed (e.withPersistence false) (fun _ => .refusingLiteral) (fun _ => True) e.maxSteps w ∧
      ¬ Agree (start (e.withPersistence false) .refusingLiteral (fun _ => .refusingLiteral)
          ticketRouted 100)
        (drive (e.withPersistence true) (fun _ => .refusingLiteral) (fun _ => .refusingLiteral)
          e.maxSteps w) := by
  intro e
  refine ⟨_, rfl, ⟨rfl, trivial, rfl, trivial⟩, ?_⟩
  rintro ⟨w, last, w', hinline, hdriven, -, hcontext, -⟩
  have hleft : w.row.context = .obj [("_event", .obj []),
      ("error", .str "validation failed: no stock")] :=
    (congrArg (fun w : Instance => w.row.context) (Except.ok.inj hinline)).symm
  have hset : w'.row.context = .obj [("_event", .obj []),
      ("error", .str "validation failed: no stock"), ("recovered_from", .str "refusal")] :=
    (congrArg (fun r : StepEnd × Instance => r.2.row.context) (Except.ok.inj hdriven)).symm
  rw [hleft, hset] at hcontext
  simp at hcontext

end Backbone.Workflow
