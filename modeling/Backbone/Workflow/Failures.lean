import Backbone.Workflow.DueClaims
import Backbone.Workflow.Drivers

/-!
# Failures that are answered

`after_failure` answers a failure in one of three ways: the step is tried again after its backoff, the
failure is routed to another step, or the instance fails. The route is an outcome like any other, whose
templates may fail and whose next step may not exist; then the transaction rolls back, and the record of
the failure with it.

The number of attempts is a `u32` that is compared as an `i32`.

Reference: `backbone-core/src/workflow/engine.rs` (`after_failure`, `apply_outcome`).
-/

namespace Backbone.Workflow

variable {e : Engine} {env : Env} {w w' : Instance} {failure : StepFailure} {outcome : Outcome}

/-! ## What `after_failure` decides -/

/-- The retry policy of the step a failure names. -/
def retryOf (e : Engine) (step : String) : RetrySpec :=
  ((policyOf e.spec step).retry.or e.spec.retry).getD ⟨e.cfg.defaultAttempts, .exponential⟩

/-- The failure is transient, or a call that outlasted its timeout and has no route of its own. -/
def Transient (e : Engine) (failure : StepFailure) : Prop :=
  failure.kind = .transient ∨
    failure.kind = .timedOut ∧ (onTimeoutOf e.spec failure.step).isNone = true

/-- The step that failed is tried again. -/
def Retries (e : Engine) (failure : StepFailure) (w : Instance) : Prop :=
  Transient e failure ∧ w.row.attempts + 1 < asI32 (retryOf e failure.step).maxAttempts

instance : Decidable (Transient e failure) := inferInstanceAs (Decidable (_ ∨ _))

instance : Decidable (Retries e failure w) := inferInstanceAs (Decidable (_ ∧ _))

/-- The outcome along which a failure that is not retried is routed. -/
def routeOf (e : Engine) (failure : StepFailure) : Option Outcome :=
  let policy := policyOf e.spec failure.step
  match failure.kind with
  | .business => policy.route
  | .transient => policy.onExhausted.or policy.route
  | .timedOut => (onTimeoutOf e.spec failure.step).or (policy.onExhausted.or policy.route)

/-- The instance with the failure in its log. -/
def Instance.logFailure (w : Instance) (failure : StepFailure) : Instance :=
  w.logStep (nextSeq w.log) failure.step .failed (some failure.message)

theorem afterFailure_of_retries (running : w.row.status = .running) (h : Retries e failure w) :
    afterFailure e env failure w = .ok (.paused, (w.logFailure failure).retryAt (w.row.attempts + 1)
      failure.message (env.now + backoffDelay e.cfg (retryOf e failure.step).backoff
        (w.row.attempts + 1)) env.now) := by
  have hretry : retryFailure e env failure w = .ok (.paused, (w.logFailure failure).retryAt
      (w.row.attempts + 1) failure.message (env.now + backoffDelay e.cfg
        (retryOf e failure.step).backoff (w.row.attempts + 1)) env.now) := by
    unfold retryFailure
    exact if_pos h.2
  rcases h.1 with hkind | ⟨hkind, hnone⟩
  · simp only [afterFailure, running, hkind, ne_eq, not_true_eq_false, if_false]
    exact hretry
  · rw [Option.isNone_iff_eq_none] at hnone
    simp only [afterFailure, running, hkind, hnone, ne_eq, not_true_eq_false, if_false,
      Option.isSome_none, Bool.false_eq_true]
    exact hretry

theorem afterFailure_of_not_retries (running : w.row.status = .running)
    (h : ¬ Retries e failure w) :
    afterFailure e env failure w = routeFailure e env failure w (routeOf e failure) := by
  have hretry (ht : Transient e failure) : retryFailure e env failure w = routeFailure e env failure w
      ((policyOf e.spec failure.step).onExhausted.or (policyOf e.spec failure.step).route) := by
    unfold retryFailure
    exact if_neg fun hlt => h ⟨ht, hlt⟩
  simp only [afterFailure, running, routeOf, ne_eq, not_true_eq_false, if_false]
  cases hkind : failure.kind with
  | business => rfl
  | transient => exact hretry (.inl hkind)
  | timedOut =>
    dsimp only
    cases hroute : onTimeoutOf e.spec failure.step with
    | none =>
      rw [if_neg (by simp)]
      exact hretry (.inr ⟨hkind, by rw [hroute]; rfl⟩)
    | some outcome => rfl

/-! ## Routes that apply -/

/-- The templates of the outcome render, and its next step is one of the spec. -/
structure Applies (spec : WorkflowSpec) (env : Env) (outcome : Outcome) (scope : Scope) : Prop where
  sets : ∀ p ∈ outcome.set.zipIdx, ∃ v, env.render (.set p.2) p.1.2 scope = .ok v
  next : ∃ next ∈ outcome.next, (spec.step next).isSome = true

theorem exists_renderAt {site : Site} {step what : String} {t : Tpl} {scope : Scope} :
    (∃ v, env.renderAt site step what t scope = .ok v) ↔ ∃ v, env.render site t scope = .ok v := by
  unfold Env.renderAt
  cases env.render site t scope with
  | ok v => simp
  | error m => simp [failBusiness]

theorem exists_applyOutcome {spec : WorkflowSpec} {step : String} {context : Value}
    {scope : Scope} {result : Option Value} :
    (∃ r, applyOutcome spec env step context outcome scope result = .ok r) ↔
      Applies spec env outcome scope := by
  have hsets : (∃ sets, (outcome.set.zipIdx.mapM fun p => do
      let v ← env.renderAt (.set p.2) step ("set `" ++ p.1.1 ++ "`") p.1.2 scope
      pure (p.1.1, v)) = .ok sets) ↔
        ∀ p ∈ outcome.set.zipIdx, ∃ v, env.render (.set p.2) p.1.2 scope = .ok v := by
    rw [exists_mapM_eq_ok]
    refine forall₂_congr fun p _ => ?_
    rw [← @exists_renderAt env _ step ("set `" ++ p.1.1 ++ "`") _ _]
    simp only [bind_eq_ok, pure_eq_ok]
    constructor
    · rintro ⟨-, v, hv, -⟩
      exact ⟨v, hv⟩
    · rintro ⟨v, hv⟩
      exact ⟨_, v, hv, rfl⟩
  constructor
  · rintro ⟨⟨context', next⟩, h⟩
    obtain ⟨hnext, hfound, -⟩ := applyOutcome_ok h
    unfold applyOutcome at h
    simp only [bind_eq_ok] at h
    obtain ⟨sets, hs, -⟩ := h
    exact ⟨hsets.mp ⟨sets, hs⟩, next, hnext, hfound⟩
  · rintro ⟨hrender, next, hnext, hfound⟩
    obtain ⟨sets, hs⟩ := hsets.mpr hrender
    have hnone : ¬ (spec.step next).isNone = true := by
      rw [← Option.not_isSome, hfound]
      simp
    have hnext : outcome.next = some next := hnext
    unfold applyOutcome
    simp only [bind_eq_ok, hnext, if_neg hnone]
    exact exists_comm.mpr ⟨sets, exists_and_left.mpr ⟨hs, _, rfl⟩⟩

/-- What the route of a failure reads. -/
def failureScope (env : Env) (failure : StepFailure) (w : Instance) : Scope :=
  { scopeOf env (w.row.context.insertIfObject "error" (.str failure.message))
      (w.row.context.getOrNull "_event") (w.logFailure failure).log with
    error := .str failure.message }

/-- A route is taken when it applies. -/
theorem routeFailure_some {last : StepEnd} :
    routeFailure e env failure w (some outcome) = .ok (last, w') ↔
      ∃ context next, applyOutcome e.spec env failure.step
          (w.row.context.insertIfObject "error" (.str failure.message)) outcome
          (failureScope env failure w) none = .ok (context, next) ∧
        last = .advanced ∧ w' = (w.logFailure failure).advance next context env.now := by
  unfold routeFailure
  simp only [bind_eq_ok, pure_eq_ok, Prod.mk.injEq, Prod.exists]
  constructor
  · rintro ⟨context, next, happly, rfl, rfl⟩
    exact ⟨context, next, happly, rfl, rfl⟩
  · rintro ⟨context, next, happly, rfl, rfl⟩
    exact ⟨context, next, happly, rfl, rfl⟩

/-- The failure is on record, and the instance has changed: one more attempt is counted, it is on
another step, or it has failed. -/
structure Answered (failure : StepFailure) (w w' : Instance) : Prop where
  recorded : ∃ seq, w'.log = w.log ++ [⟨seq, failure.step, .failed, some failure.message⟩]
  changed : w.row.attempts < w'.row.attempts ∨ w'.row.currentStep ≠ w.row.currentStep ∨
    w'.row.status = .failed ∨ w'.row.status = .compensating

/-- A failure is answered unless it is routed, and its route does not apply or leads back to the step
the instance is on (and the column of the attempts is not below zero). -/
theorem answered_iff (running : w.row.status = .running) :
    (∃ last w', afterFailure e env failure w = .ok (last, w') ∧ Answered failure w w') ↔
      (¬ Retries e failure w → ∀ outcome ∈ routeOf e failure,
        Applies e.spec env outcome (failureScope env failure w) ∧
          (outcome.next ≠ w.row.currentStep ∨ w.row.attempts < 0)) := by
  by_cases hretries : Retries e failure w
  · rw [afterFailure_of_retries running hretries]
    refine iff_of_true ⟨_, _, rfl, ⟨_, rfl⟩, .inl ?_⟩ fun h => absurd hretries h
    show w.row.attempts < w.row.attempts + 1
    omega
  · rw [afterFailure_of_not_retries running hretries]
    simp only [hretries, not_false_eq_true, forall_const]
    cases hroute : routeOf e failure with
    | none =>
      refine iff_of_true ?_ fun outcome h => by cases h
      unfold routeFailure
      dsimp only
      split
      · exact ⟨_, _, rfl, ⟨_, rfl⟩, .inr (.inr (.inl rfl))⟩
      · exact ⟨_, _, rfl, ⟨_, rfl⟩, .inr (.inr (.inr rfl))⟩
    | some outcome =>
      constructor
      · rintro ⟨last, w', h, hanswered⟩ outcome' houtcome
        obtain rfl := Option.some.inj houtcome
        obtain ⟨context, next, happly, -, rfl⟩ := routeFailure_some.mp h
        refine ⟨exists_applyOutcome.mp ⟨_, happly⟩, ?_⟩
        rw [(applyOutcome_ok happly).1]
        rcases hanswered.changed with hgrows | hmoves | hfailed | hcompensating
        · exact .inr hgrows
        · exact .inl hmoves
        · cases running.symm.trans hfailed
        · cases running.symm.trans hcompensating
      · intro h
        obtain ⟨happlies, hchanges⟩ := h outcome rfl
        obtain ⟨⟨context, next⟩, happly⟩ := exists_applyOutcome.mpr happlies
        rw [(applyOutcome_ok happly).1] at hchanges
        refine ⟨_, _, routeFailure_some.mpr ⟨context, next, happly, rfl, rfl⟩, ⟨_, rfl⟩, ?_⟩
        rcases hchanges with hmoves | hgrows
        · exact .inr (.inl hmoves)
        · exact .inl hgrows

/-- An order on its first step. -/
def placed : Instance where
  row :=
    { id := 100, workflow := "order", version := 1, companyId := 7, orgUnitId := none,
      status := .running, currentStep := some "reserve", context := .obj [], triggerEventId := 1,
      correlationId := none, deadlineAt := none, waitEvent := none, waitKey := none,
      waitDueAt := none, attempts := 0, lastError := none, createdAt := 0, updatedAt := 0 }
  log := []
  executions := []
  emitted := []

def refused : StepFailure := ⟨"reserve", .business, "validation failed: no stock"⟩

theorem answered_iff_refused :
    ∃ last w', afterFailure orders .calm refused placed = .ok (last, w') ∧
      Answered refused placed w' := by
  refine (answered_iff rfl).mpr fun _ outcome houtcome => ?_
  obtain rfl : (⟨[], some "rejected"⟩ : Outcome) = outcome :=
    Option.some.inj ((show routeOf orders refused = _ by rfl).symm.trans houtcome)
  refine ⟨⟨fun p hp => ?_, "rejected", rfl, by decide⟩, .inl (by decide)⟩
  cases hp

/-- An order whose rejection states a share of the stock. -/
def shares : Engine where
  spec :=
    { orderSpec with
      steps := orderSpec.steps.map fun s =>
        if s.name = "reserve" then
          { s with onFailure := some { next := some "rejected", set := [share] } }
        else s }
  floatText := fun _ => ""
where
  share := ("share", .template [.expr (.bin .div (.lit (.num (.int 1))) (.path .context [.key "stock"]))])

/-- There is no stock to divide by. -/
def Env.dividing : Env := { Env.calm with render := fun _ _ _ => .error "division by zero" }

/-- The rejection fails, and the refusal is not on record. -/
theorem not_answered :
    ¬ ∃ last w', afterFailure shares .dividing refused placed = .ok (last, w') ∧
      Answered refused placed w' := by
  rintro ⟨last, w', h, -⟩
  cases h

/-! ## Attempts -/

/-- A count that fits is compared as it is; one that does not is below zero. -/
theorem asI32_eq {n : ℕ} (h : n < 2 ^ 31) : asI32 n = n := by
  unfold asI32
  rw [Int.bmod_eq_of_le] <;> omega

theorem asI32_neg {n : ℕ} (h : 2 ^ 31 ≤ n) (hu32 : n < 2 ^ 32) : asI32 n < 0 := by
  unfold asI32 Int.bmod
  dsimp only
  split <;> omega

/-- The failures of a step in the log. -/
def failedRows (step : String) (log : List StepRow) : ℕ :=
  log.countP fun r => r.step == step && r.outcome == .failed

/-- What the driver `p` of an instance does while its step fails: it may stop at any time and be started
again or recovered by a sweep, every `run_one` of it fails for a transient reason, and what it answers
with a route is not a part of it any more. -/
def keepsFailing (e : Engine) (p : ℕ) (W : World) : Act → Bool
  | .run q | .sweep q | .dbError q | .crash q => q == p
  | .txn q env => q == p &&
    match W.procs p, W.inst with
    | .driving _, some w =>
      match runOne e env w with
      | .error f => decide (Transient e f)
      | .ok _ => false
    | .failed _ f, some w => decide (Retries e f w)
    | _, _ => true
  | _ => false

/-- Where a process is that drives an instance whose step keeps failing. -/
inductive OnStep (e : Engine) (step : String) : Proc → Prop where
  | idle : OnStep e step .idle
  | driving (n : ℕ) : OnStep e step (.driving n)
  | sweeping : OnStep e step .sweeping
  | failed (n : ℕ) {f : StepFailure} (names : f.step = step) (transient : Transient e f) :
      OnStep e step (.failed n f)

/-- The instance stays on its step, and counts the failures it has had since `w₀`. -/
structure Counting (e : Engine) (p : ℕ) (w₀ : Instance) (step : String) (W : World) (w : Instance) :
    Prop where
  inst : W.inst = some w
  running : w.row.status = .running
  current : w.row.currentStep = some step
  attempts : w.row.attempts + failedRows step w₀.log = failedRows step w.log
  more : failedRows step w₀.log ≤ failedRows step w.log
  retried : failedRows step w₀.log < failedRows step w.log →
    0 < asI32 (retryOf e step).maxAttempts
  proc : OnStep e step (W.procs p)

namespace Counting

variable {p : ℕ} {w₀ : Instance} {name : String} {W : World}

section

variable (h : Counting e p w₀ name W w)
include h

/-- The process goes on to another place in the code. -/
theorem setProc {x : Proc} (hx : OnStep e name x) : Counting e p w₀ name (W.setProc p x) w :=
  ⟨h.inst, h.running, h.current, h.attempts, h.more, h.retried, by
    show OnStep e name (Function.update W.procs p x p)
    rw [Function.update_self]
    exact hx⟩

theorem call {x : Proc} (hx : OnStep e name x) : Counting e p w₀ name (W.call p x) w := by
  unfold World.call
  split
  · exact h.setProc hx
  · exact h

/-- A transaction that leaves the step, the attempts and the log alone. -/
theorem setInst (hstatus : w'.row.status = w.row.status)
    (hcurrent : w'.row.currentStep = w.row.currentStep)
    (hattempts : w'.row.attempts = w.row.attempts) (hlog : w'.log = w.log) :
    Counting e p w₀ name { W with inst := some w' } w' :=
  ⟨rfl, hstatus.trans h.running, hcurrent.trans h.current, by rw [hattempts, hlog]; exact h.attempts,
    by rw [hlog]; exact h.more, by rw [hlog]; exact h.retried, h.proc⟩

/-- A failure that is retried is counted. -/
theorem retryAt {f : StepFailure} (hstep : f.step = name)
    (hretries : Retries e f w) {due now : Time} :
    Counting e p w₀ name { W with inst := some ((w.logFailure f).retryAt (w.row.attempts + 1)
      f.message due now) } ((w.logFailure f).retryAt (w.row.attempts + 1) f.message due now) := by
  have hrows : failedRows name ((w.logFailure f).retryAt (w.row.attempts + 1) f.message due now).log =
      failedRows name w.log + 1 := by
    show failedRows name (w.log ++ [⟨nextSeq w.log, f.step, .failed, some f.message⟩]) = _
    rw [failedRows, List.countP_append, hstep]
    simp [failedRows]
  have hattempts := h.attempts
  have hmore := h.more
  have hlt := hretries.2
  rw [hstep] at hlt
  refine ⟨rfl, h.running, h.current, ?_, by omega, fun _ => by omega, h.proc⟩
  show w.row.attempts + 1 + (failedRows name w₀.log : ℤ) = _
  rw [hrows]
  omega

theorem step {a : Act} (ha : keepsFailing e p W a = true) :
    ∃ w', Counting e p w₀ name (W.step e a) w' := by
  have hdrive : OnStep e name (Proc.drive e) := by
    unfold Proc.drive
    split
    · exact .driving _
    · exact .idle
  cases a with
  | start | resume | compensate | cancel => cases ha
  | run q =>
    obtain rfl : q = p := beq_iff_eq.mp ha
    exact ⟨w, h.call hdrive⟩
  | sweep q =>
    obtain rfl : q = p := beq_iff_eq.mp ha
    exact ⟨w, h.call .sweeping⟩
  | crash q =>
    obtain rfl : q = p := beq_iff_eq.mp ha
    exact ⟨w, h.setProc .idle⟩
  | dbError q =>
    obtain rfl : q = p := beq_iff_eq.mp ha
    refine ⟨w, h.setProc ?_⟩
    have hproc := h.proc
    generalize W.procs q = x at hproc
    cases hproc <;> exact .idle
  | txn q env =>
    simp only [keepsFailing, Bool.and_eq_true, beq_iff_eq, h.inst] at ha
    obtain ⟨rfl, ha⟩ := ha
    simp only [World.step, h.inst]
    have hproc := h.proc
    have hstays : Counting e q w₀ name { W with inst := some w } w := h.setInst rfl rfl rfl rfl
    cases hx : W.procs q with
    | idle => exact ⟨w, hstays.setProc .idle⟩
    | driving n =>
      -- `run_one` rolls back, and the failure is of this step.
      simp only [hx] at ha
      cases herror : runOne e env w with
      | ok r =>
        rw [herror] at ha
        cases ha
      | error f =>
        rw [herror] at ha
        simp only [Proc.txn, herror]
        have hnames : w.row.currentStep = none ∨ w.row.currentStep = some f.step :=
          (runOne_error herror).2
        rw [h.current] at hnames
        have hname : f.step = name := (Option.some.inj (hnames.resolve_left (by simp))).symm
        exact ⟨w, hstays.setProc (.failed n hname (of_decide_eq_true ha))⟩
    | failed n f =>
      rw [hx] at hproc
      cases hproc with
      | failed _ hname htransient =>
        simp only [hx] at ha
        have hf : Retries e f w := of_decide_eq_true ha
        simp only [Proc.txn, afterFailure_of_retries h.running hf]
        exact ⟨_, (h.retryAt hname hf).setProc .idle⟩
    | sweeping =>
      simp only [Proc.txn]
      cases hclaim : claimDue e env w with
      | error f => exact ⟨w, hstays.setProc .idle⟩
      | ok r =>
        cases r with
        | none => exact ⟨w, hstays.setProc .idle⟩
        | some r =>
          obtain ⟨claim, w'⟩ := r
          obtain ⟨-, ⟨hwaiting, -⟩ | ⟨hwaiting, -⟩ | ⟨-, hkind, rfl⟩ | ⟨hcompensating, -⟩⟩ :=
            claimDue_ok hclaim
          · cases h.running.symm.trans hwaiting
          · cases h.running.symm.trans hwaiting
          · have htaken : Counting e q w₀ name { W with inst := some (w.takeRunning env.now) }
                (w.takeRunning env.now) := h.setInst rfl rfl rfl rfl
            refine ⟨_, htaken.setProc ?_⟩
            rcases hkind with rfl | rfl <;> exact hdrive
          · cases h.running.symm.trans hcompensating
    | runaway | compensating | recording =>
      rw [hx] at hproc
      cases hproc

end

end Counting

/-- An answer that pauses the instance is a retry. -/
theorem afterFailure_paused_iff (running : w.row.status = .running) :
    (∃ w', afterFailure e env failure w = .ok (.paused, w')) ↔ Retries e failure w := by
  by_cases hretries : Retries e failure w
  · rw [afterFailure_of_retries running hretries]
    exact iff_of_true ⟨_, rfl⟩ hretries
  · rw [afterFailure_of_not_retries running hretries]
    refine iff_of_false ?_ hretries
    rintro ⟨w', h⟩
    cases hroute : routeOf e failure with
    | none =>
      rw [hroute] at h
      unfold routeFailure at h
      dsimp only at h
      split at h <;> cases h
    | some outcome =>
      rw [hroute, routeFailure_some] at h
      obtain ⟨context, next, -, hlast, -⟩ := h
      cases hlast

/-- A step that keeps failing is tried as often as its policy says, counted from when the instance came
onto it, just when that number is one of an `i32`. -/
theorem attempts_iff {p : ℕ} {W₀ : World} {w₀ : Instance} {step : String} {as : List Act}
    (hinst : W₀.inst = some w₀) (running : w₀.row.status = .running)
    (current : w₀.row.currentStep = some step) (entered : w₀.row.attempts = 0)
    (hproc : W₀.procs p = .idle ∨ ∃ n, W₀.procs p = .driving n)
    (has : Machine.Along (World.step e) (fun W a => keepsFailing e p W a = true) W₀ as) {n : ℕ}
    (hfailed : (Machine.run (World.step e) W₀ as).procs p = .failed n failure)
    (hw : (Machine.run (World.step e) W₀ as).inst = some w)
    (hu32 : (retryOf e step).maxAttempts < 2 ^ 32) (env : Env) :
    ((∃ w', afterFailure e env failure w = .ok (.paused, w')) ↔
        failedRows step w.log - failedRows step w₀.log + 1 < max 1 (retryOf e step).maxAttempts) ↔
      (retryOf e step).maxAttempts < 2 ^ 31 := by
  have hstart : ∃ w, Counting e p w₀ step W₀ w := by
    refine ⟨w₀, hinst, running, current, by omega, Nat.le_refl _,
      fun h => absurd h (Nat.lt_irrefl _), ?_⟩
    rcases hproc with hidle | ⟨n, hdriving⟩
    · rw [hidle]
      exact .idle
    · rw [hdriving]
      exact .driving n
  obtain ⟨w', hcounting⟩ := Machine.invariant_along (World.step e)
    (I := fun W => ∃ w, Counting e p w₀ step W w) (fun W a h ha => h.elim fun w h => h.step ha) hstart has
  obtain rfl : w' = w := Option.some.inj (hcounting.inst.symm.trans hw)
  have hon := hcounting.proc
  rw [hfailed] at hon
  cases hon with
  | failed _ hname htransient =>
    rw [afterFailure_paused_iff hcounting.running, Retries, hname]
    have hattempts := hcounting.attempts
    have hmore := hcounting.more
    have hretried := hcounting.retried
    by_cases hfits : (retryOf e step).maxAttempts < 2 ^ 31
    · rw [asI32_eq hfits]
      refine iff_of_true ⟨fun h => ?_, fun h => ⟨htransient, ?_⟩⟩ hfits
      · have := h.2
        omega
      · omega
    · have hneg := asI32_neg (Nat.not_lt.mp hfits) hu32
      refine iff_of_false (fun h => ?_) hfits
      have hretries := h.mpr (by omega)
      have := hretries.2
      omega

/-- A definition that cannot be reached. -/
def Env.down (now : Time) : Env :=
  { Env.calm with now, clock := now, perform := fun _ => .error (.internal "down") }

/-- An order whose reservation fails three times, with a crash before the second attempt. -/
def failedThrice : List Act :=
  [.txn 0 (.down 0), .txn 0 (.down 0), .sweep 0, .crash 0, .sweep 0, .txn 0 (.down 5000000),
    .txn 0 (.down 5000000), .txn 0 (.down 5000000), .sweep 0, .txn 0 (.down 20000000),
    .txn 0 (.down 20000000)]

theorem attempts_iff_failedThrice : ∃ w f,
    (Machine.run (World.step orders) (World.after orders [.placeOrder, .run 0]) failedThrice).inst =
      some w ∧ failedRows "reserve" w.log = 2 ∧
    ¬ ∃ w', afterFailure orders .calm f w = .ok (.paused, w') := by
  refine ⟨_, ⟨"reserve", .transient, "internal error: down"⟩, rfl, by decide, ?_⟩
  have halong : Machine.Along (World.step orders) (fun W a => keepsFailing orders 0 W a = true)
      (World.after orders [.placeOrder, .run 0]) failedThrice := by decide
  have h := attempts_iff (by rfl) (by rfl) (by rfl) (by rfl) (.inr ⟨_, by rfl⟩) halong (by rfl)
    (by rfl) (by decide) .calm
  exact fun hpaused => absurd ((h.mpr (by decide)).mp hpaused) (by decide)

/-- Orders that are to be tried as often as a `u32` can say. -/
def stubborn : Engine where
  spec := { orderSpec with retry := some ⟨2 ^ 32 - 1, .fixed 1⟩ }
  floatText := fun _ => ""

/-- The first failure is the last one. -/
theorem attempts_lost : ∃ w n f,
    (Machine.run (World.step stubborn) (World.after stubborn [.placeOrder, .run 0])
      [.txn 0 (.down 0)]).inst = some w ∧
    (Machine.run (World.step stubborn) (World.after stubborn [.placeOrder, .run 0])
      [.txn 0 (.down 0)]).procs 0 = .failed n f ∧
    Transient stubborn f ∧ failedRows "reserve" w.log = 0 ∧
    ¬ ∃ w', afterFailure stubborn .calm f w = .ok (.paused, w') := by
  refine ⟨_, _, ⟨"reserve", .transient, "internal error: down"⟩, rfl, rfl, by decide, by decide, ?_⟩
  rw [afterFailure_paused_iff (by rfl)]
  decide

end Backbone.Workflow
