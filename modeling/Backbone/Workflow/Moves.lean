import Backbone.Lib.Except
import Backbone.Workflow.Engine

/-!
# What a committed transaction does to an instance

`Move spec w r w'` lists, one constructor for each way a transaction of the engine commits, the change
it makes to the instance and the state it can make it from. The transactions refine it: whatever
their environment answers, a body that commits left the instance alone or made one move
(`runOne_move`, `afterFailure_move`, `resumeOne_move`, `claimDue_move`, ...). Every law about the
stored instance is then proved once, by cases on the moves.
-/

namespace Backbone.Workflow

/-- The instance is on the step `s` of the spec. -/
structure On (spec : WorkflowSpec) (w : Instance) (s : StepSpec) : Prop where
  current : w.row.currentStep = some s.name
  found : spec.step s.name = some s

/-- The status a compensation step may run in. -/
def Status.compensable : Status → Bool
  | .compensating | .failed | .compensated => true
  | _ => false

/-- What a transaction handles: nothing but the instance itself, an event, the failure of a step, or
the failure of a compensation. -/
inductive Report where
  | nothing
  | event
  | failure (step : String)
  | compensation (c : CompStep)

/-- The changes one committed transaction can make, together with what it handles. -/
inductive Move (spec : WorkflowSpec) (w : Instance) : Report → Instance → Prop where
  /-- A step whose guard does not hold is skipped. -/
  | skip {s : StepSpec} {next : String} (context : Value) (now : Time)
      (running : w.row.status = .running) (on : On spec w s)
      (edge : next ∈ s.kind.successors) (found : (spec.step next).isSome) :
      Move spec w .nothing ((w.logStep (nextSeq w.log) s.name .skipped none).advance next context now)
  /-- An action or a transition is performed. -/
  | perform {s : StepSpec} {next : String} (effect : Effect) (context : Value) (now : Time)
      (running : w.row.status = .running) (on : On spec w s) (performs : s.kind.performs = true)
      (edge : next ∈ s.kind.successors) (found : (spec.step next).isSome) :
      Move spec w .nothing (((w.execute ⟨s.name, false, effect⟩).logStep (nextSeq w.log) s.name .ok
        none).advance next context now)
  /-- A branch of a condition is taken. -/
  | branch {s : StepSpec} {next : String} (context : Value) (now : Time)
      (running : w.row.status = .running) (on : On spec w s) (silent : s.kind.performs = false)
      (edge : next ∈ s.kind.successors) (found : (spec.step next).isSome) :
      Move spec w .nothing ((w.logStep (nextSeq w.log) s.name .ok none).advance next context now)
  /-- A wait is entered. -/
  | wait {s : StepSpec} {event : Option String} {key : List WaitKey} {timeout : Option Dur}
      {onEvent onTimeout : Option Outcome} (waitKey : Option String) (due : Option Time) (now : Time)
      (running : w.row.status = .running) (on : On spec w s)
      (kind : s.kind = .wait event key timeout onEvent onTimeout)
      (keyed : waitKey.isSome = event.isSome) (awaits : event.isSome ∨ due.isSome) :
      Move spec w .nothing ((w.logStep (nextSeq w.log) s.name .waiting none).enterWait event waitKey due
        now)
  /-- A terminal step ends the instance. -/
  | terminal {s : StepSpec} {status : Status} (emitted : List Staged)
      (reason error : Option String) (context : Value) (now : Time)
      (running : w.row.status = .running) (on : On spec w s)
      (ends : status = .compensating ∨ ∃ t, status = terminalStatus t) :
      Move spec w .nothing (({ w with emitted := w.emitted ++ emitted }.logStep (nextSeq w.log) s.name
        .terminal reason).finish status s.name error context now)
  /-- A failure of the step `f` is routed. -/
  | route {f : String} {s : StepSpec} {next : String} (message : String) (context : Value)
      (now : Time) (running : w.row.status = .running) (policy : spec.step f = some s)
      (edge : next ∈ s.edges) (found : (spec.step next).isSome) :
      Move spec w (.failure f) ((w.logStep (nextSeq w.log) f .failed (some message)).advance next
        context now)
  /-- A failure is retried later. -/
  | retry {f : String} (message : String) (attempts : ℤ) (due now : Time)
      (running : w.row.status = .running) :
      Move spec w (.failure f) ((w.logStep (nextSeq w.log) f .failed (some message)).retryAt attempts
        message due now)
  /-- A failure has nowhere to go. -/
  | giveUp {f : String} {status : Status} (message : String) (attempts : ℤ) (now : Time)
      (running : w.row.status = .running) (ends : status = .compensating ∨ status = .failed) :
      Move spec w (.failure f) ((w.logStep (nextSeq w.log) f .failed (some message)).giveUp status attempts
        message now)
  /-- A wait is left on its event. -/
  | resume {s : StepSpec} {next : String} (context : Value) (now : Time)
      (waiting : w.row.status = .waiting) (on : On spec w s) (silent : s.kind.performs = false)
      (edge : next ∈ s.kind.successors) (found : (spec.step next).isSome) :
      Move spec w .event ((w.logStep (nextSeq w.log) s.name .resumed none).leave next context now)
  /-- A wait is left on its timeout. -/
  | timeOut {s : StepSpec} {next : String} (context : Value) (now : Time)
      (waiting : w.row.status = .waiting) (on : On spec w s) (silent : s.kind.performs = false)
      (edge : next ∈ s.kind.successors) (found : (spec.step next).isSome) :
      Move spec w .nothing ((w.logStep (nextSeq w.log) s.name .timedOut none).leave next context
        now)
  /-- A waiting instance passes its deadline. -/
  | expire (step : String) (reason : Option String) (now : Time)
      (waiting : w.row.status = .waiting) :
      Move spec w .nothing ((w.logStep (nextSeq w.log) step .expired reason).expire now)
  /-- The sweep takes a running instance. -/
  | take (now : Time) (running : w.row.status = .running) : Move spec w .nothing (w.takeRunning now)
  /-- The sweep takes a compensating instance. -/
  | touch (now : Time) (compensating : w.row.status = .compensating) : Move spec w .nothing (w.touch now)
  /-- A compensation step runs. -/
  | compensate (c : CompStep) (effect : Effect) (status : w.row.status.compensable = true)
      (fresh : hasRow w.log c.label .compensated = false) :
      Move spec w .nothing ((w.execute ⟨c.label, true, effect⟩).logStep (nextSeq w.log) c.label .compensated
        none)
  /-- The failure of a compensation step is recorded. -/
  | compensationFailed (c : CompStep) (message : String) :
      Move spec w (.compensation c) (recordCompensationFailure c message w)
  /-- A compensation run ends. -/
  | close {status : Status} (error : Option String) (now : Time)
      (was : w.row.status = .compensating ∨ w.row.status = .failed)
      (ends : status = .compensated ∨ status = .failed) :
      Move spec w .nothing (w.close status error now)
  /-- The instance is cancelled. -/
  | cancel (step : String) (now : Time) (live : w.row.isFinal = false) :
      Move spec w .nothing ((w.logStep (nextSeq w.log) step .cancelled none).markCancelled now)

/-! ## Outcomes -/

section Refinement

variable {e : Engine} {env : Env} {w : Instance} {w' : Instance} {last : StepEnd} {scope : Scope}
  {outcome : Outcome} {failure : StepFailure} {record : OutboxRecord} {envs : ℕ → Env}
  {s : StepSpec} {onEvent onTimeout : Option Outcome}
  {next : String} {step : StepSpec} {event : Option String} {key : List WaitKey}
  {timeout : Option Dur} {claim : Claim} {c : CompStep} {J : Instance → Prop} {w : Instance}
  {id : Uuid}

/-- `apply_outcome` answers an object and the outcome's own next step, and that step exists. -/
theorem applyOutcome_ok {spec : WorkflowSpec} {env : Env} {step : String} {context : Value}
    {result : Option Value} {context' : Value}
    (h : applyOutcome spec env step context outcome scope result = .ok (context', next)) :
    outcome.next = some next ∧ (spec.step next).isSome ∧ context'.isObject := by
  unfold applyOutcome at h
  simp only [bind_eq_ok] at h
  obtain ⟨sets, -, h⟩ := h
  cases hn : outcome.next with
  | none => simp [hn, failBusiness] at h
  | some n =>
    simp only [hn] at h
    split at h
    · simp [failBusiness] at h
    · rename_i hsome
      simp only [pure_eq_ok, Prod.mk.injEq] at h
      obtain ⟨rfl, rfl⟩ := h
      exact ⟨rfl, by simpa [Option.isNone_iff_eq_none, Option.isSome_iff_ne_none] using hsome, rfl⟩

/-- An optional part is there exactly when the spec names it. -/
theorem isSome_of_optional {α β : Type} {x : Option α} {f : α → Except StepFailure β}
    {y : Option β} (h : optional x f = .ok y) : y.isSome = x.isSome := by
  cases x with
  | none =>
    simp only [optional, pure_eq_ok] at h
    simp [← h]
  | some a =>
    simp only [optional, bind_eq_ok, pure_eq_ok] at h
    obtain ⟨b, -, rfl⟩ := h
    rfl

/-- A taken branch is one of the condition's branches. -/
theorem mem_of_takenBranch {stepName : String} {branches : List (Branch × ℕ)} {b : Branch}
    (h : takenBranch env stepName scope branches = .ok (some b)) : ∃ i, (b, i) ∈ branches := by
  induction branches with
  | nil => simp [takenBranch, pure_eq_ok] at h
  | cons p rest ih =>
    obtain ⟨branch, i⟩ := p
    simp only [takenBranch, bind_eq_ok] at h
    obtain ⟨taken, -, h⟩ := h
    cases taken with
    | true =>
      simp only [if_true, pure_eq_ok, Option.some.injEq] at h
      exact ⟨i, by simp [h]⟩
    | false =>
      obtain ⟨j, hj⟩ := ih (by simpa using h)
      exact ⟨j, List.mem_cons_of_mem _ hj⟩

/-! ## `run_one` -/

/-- What the answer of a committed `run_one` says about the instance it leaves. -/
def Reports (e : Engine) (w' : Instance) : StepEnd → Prop
  | .advanced => w'.row.status = .running
  | .paused => w'.row.status = .waiting ∧ e.spec.persistence = true
  | .finished => ∃ t, w'.row.status = terminalStatus t
  | .compensate => w'.row.status = .compensating

theorem skipStep_move (running : w.row.status = .running) (on : On e.spec w step)
    (h : skipStep e env w (nextSeq w.log) step step.name scope = .ok (last, w')) :
    Move e.spec w .nothing w' ∧ Reports e w' last := by
  unfold skipStep at h
  simp only [bind_eq_ok, pure_eq_ok, Prod.mk.injEq, Prod.exists] at h
  obtain ⟨next?, hnext, context, next, happly, rfl, rfl⟩ := h
  obtain ⟨rfl, found, -⟩ := applyOutcome_ok happly
  unfold skipNext at hnext
  refine ⟨.skip context env.now running on ?_ found, running⟩
  cases hk : step.kind with
  | action a en id params onSuccess onTimeout =>
    simp only [hk, pure_eq_ok] at hnext
    simp [StepKind.successors, hnext]
  | transition en id verb params onSuccess =>
    simp only [hk, pure_eq_ok] at hnext
    simp [StepKind.successors, hnext]
  | condition branches => simp [hk, failBusiness] at hnext
  | wait event key timeout onEvent onTimeout => simp [hk, failBusiness] at hnext
  | terminal status reason emit compensate result => simp [hk, failBusiness] at hnext

/-- How `run_one` may end: advanced by a move, paused in a wait, or ended. -/
theorem performStep_move (running : w.row.status = .running)
    (on : On e.spec w step)
    (h : performStep e env w (nextSeq w.log) step step.name scope = .ok (last, w')) :
    Move e.spec w .nothing w' ∧ Reports e w' last := by
  unfold performStep at h
  cases hk : step.kind with
  | action a en id params onSuccess onTimeout =>
    simp only [hk, bind_eq_ok, pure_eq_ok, Prod.mk.injEq, Prod.exists] at h
    obtain ⟨rendered, -, recordId, -, result, effect, -, context, next, happly, rfl, rfl⟩ := h
    obtain ⟨hnext, found, -⟩ := applyOutcome_ok happly
    refine ⟨.perform effect context env.now running on (by simp [hk, StepKind.performs]) ?_ found,
      running⟩
    simp [hk, StepKind.successors, hnext]
  | transition en id verb params onSuccess =>
    simp only [hk, bind_eq_ok] at h
    obtain ⟨rendered, -, recordId, -, h⟩ := h
    split at h
    · simp [failBusiness] at h
    · simp only [bind_eq_ok, pure_eq_ok, Prod.mk.injEq, Prod.exists] at h
      obtain ⟨result, -, context, next, happly, rfl, rfl⟩ := h
      obtain ⟨hnext, found, -⟩ := applyOutcome_ok happly
      refine ⟨.perform _ context env.now running on (by simp [hk, StepKind.performs]) ?_ found,
        running⟩
      simp [hk, StepKind.successors, hnext]
  | condition branches =>
    simp only [hk, bind_eq_ok] at h
    obtain ⟨taken, htaken, h⟩ := h
    cases taken with
    | none => simp [failBusiness] at h
    | some b =>
      simp only [bind_eq_ok, pure_eq_ok, Prod.mk.injEq, Prod.exists] at h
      obtain ⟨context, next, happly, rfl, rfl⟩ := h
      obtain ⟨hnext, found, -⟩ := applyOutcome_ok happly
      obtain ⟨i, hi⟩ := mem_of_takenBranch htaken
      simp only [Option.some.injEq] at hnext
      refine ⟨.branch context env.now running on (by simp [hk, StepKind.performs]) ?_ found, running⟩
      rw [hk]
      exact List.mem_map.mpr ⟨b, List.fst_mem_of_mem_zipIdx hi, hnext⟩
  | wait event key timeout onEvent onTimeout =>
    simp only [hk] at h
    split at h
    · simp [failBusiness] at h
    · rename_i hpersist
      simp only [bind_eq_ok] at h
      obtain ⟨waitKey?, hkey, due, -, h⟩ := h
      split at h
      · simp [failBusiness] at h
      · rename_i hawaits
        simp only [pure_eq_ok, Prod.mk.injEq] at h
        obtain ⟨rfl, rfl⟩ := h
        refine ⟨.wait waitKey? due env.now running on hk ?_ ?_, rfl, by simpa using hpersist⟩
        · exact isSome_of_optional hkey
        · simpa [Option.isSome_iff_ne_none, or_iff_not_imp_left] using hawaits
  | terminal status reason emit compensate result =>
    simp only [hk, bind_eq_ok, pure_eq_ok, Prod.mk.injEq] at h
    obtain ⟨context, -, emitted, -, reasonText, -, rfl, rfl⟩ := h
    by_cases hc : (compensate && status == .failed && !e.spec.compensation.isEmpty) = true
    · rw [if_pos hc, if_pos hc]
      exact ⟨.terminal _ _ _ _ _ running on (.inl rfl), rfl⟩
    · rw [if_neg hc, if_neg hc]
      exact ⟨.terminal _ _ _ _ _ running on (.inr ⟨status, rfl⟩), status, rfl⟩

/-- `run_one` leaves an instance that does not run alone, and moves a running one. -/
theorem runOne_move (h : runOne e env w = .ok (last, w')) :
    (w' = w ∧ last = .paused ∧ w.row.status ≠ .running) ∨
      w.row.status = .running ∧ Move e.spec w .nothing w' ∧ Reports e w' last := by
  unfold runOne at h
  split at h
  · rename_i hstatus
    simp only [pure_eq_ok, Prod.mk.injEq] at h
    exact .inl ⟨h.2.symm, h.1.symm, hstatus⟩
  · rename_i hstatus
    have running : w.row.status = .running := by simpa using hstatus
    cases hstep : w.row.currentStep with
    | none => simp [hstep, failBusiness] at h
    | some stepName =>
      simp only [hstep] at h
      cases hfound : e.spec.step stepName with
      | none => simp [hfound, failBusiness] at h
      | some step =>
        simp only [hfound, bind_eq_ok] at h
        obtain ⟨holds, -, h⟩ := h
        obtain rfl := WorkflowSpec.name_of_step hfound
        have on : On e.spec w step := ⟨hstep, hfound⟩
        refine .inr ⟨running, ?_⟩
        split at h
        · exact performStep_move running on h
        · exact skipStep_move running on h

/-! ## `after_failure` -/

/-- The route of a failure of the step `f` is an edge of `f`. -/
theorem route_edge {f : String}
    (h : onTimeoutOf e.spec f = some outcome ∨ (policyOf e.spec f).route = some outcome ∨
      (policyOf e.spec f).onExhausted = some outcome) (hnext : outcome.next = some next) :
    ∃ s, e.spec.step f = some s ∧ next ∈ s.edges := by
  cases hf : e.spec.step f with
  | none => simp [onTimeoutOf, policyOf, hf, FailureSpec.route] at h
  | some s =>
    refine ⟨s, rfl, ?_⟩
    simp only [onTimeoutOf, policyOf, hf, Option.bind_some] at h
    rcases h with h | h
    · cases hk : s.kind with
      | action a en id params onSuccess onTimeout =>
        simp only [hk] at h
        simp [StepSpec.edges, hk, StepKind.successors, h, hnext]
      | _ => simp [hk] at h
    · cases hp : s.onFailure with
      | none => simp [hp, FailureSpec.route] at h
      | some p =>
        simp only [hp, Option.getD_some] at h
        have hmem : next ∈ p.successors := by
          rcases h with h | h
          · simp only [FailureSpec.route, Option.map_eq_some_iff] at h
            obtain ⟨n, hn, rfl⟩ := h
            simp only [Option.some.injEq] at hnext
            simp [FailureSpec.successors, hn, hnext]
          · simp [FailureSpec.successors, h, hnext]
        simp [StepSpec.edges, hp, hmem]

/-- What `after_failure` does once it has decided on a route, or on none. -/
theorem routeFailure_move {route : Option Outcome} (running : w.row.status = .running)
    (hroute : ∀ outcome, route = some outcome → onTimeoutOf e.spec failure.step = some outcome ∨
      (policyOf e.spec failure.step).route = some outcome ∨
      (policyOf e.spec failure.step).onExhausted = some outcome)
    (h : routeFailure e env failure w route = .ok (last, w')) :
    Move e.spec w (.failure failure.step) w' ∧ (last = .compensate → w'.row.status = .compensating) := by
  unfold routeFailure at h
  cases route with
  | some outcome =>
    simp only [bind_eq_ok, pure_eq_ok, Prod.mk.injEq, Prod.exists] at h
    obtain ⟨context, next, happly, rfl, rfl⟩ := h
    obtain ⟨hnext, found, -⟩ := applyOutcome_ok happly
    obtain ⟨s, hs, edge⟩ := route_edge (hroute outcome rfl) hnext
    exact ⟨.route failure.message context env.now running hs edge found, nofun⟩
  | none =>
    simp only at h
    split at h
    · simp only [pure_eq_ok, Prod.mk.injEq] at h
      obtain ⟨rfl, rfl⟩ := h
      exact ⟨.giveUp failure.message _ env.now running (.inr rfl), nofun⟩
    · simp only [pure_eq_ok, Prod.mk.injEq] at h
      obtain ⟨rfl, rfl⟩ := h
      exact ⟨.giveUp failure.message _ env.now running (.inl rfl), fun _ => rfl⟩

theorem retryFailure_move (running : w.row.status = .running)
    (h : retryFailure e env failure w = .ok (last, w')) :
    Move e.spec w (.failure failure.step) w' ∧ (last = .compensate → w'.row.status = .compensating) := by
  unfold retryFailure at h
  simp only at h
  split at h
  · simp only [pure_eq_ok, Prod.mk.injEq] at h
    obtain ⟨rfl, rfl⟩ := h
    exact ⟨.retry failure.message _ _ env.now running, nofun⟩
  · refine routeFailure_move running ?_ h
    intro outcome hroute
    rcases Option.or_eq_some_iff.mp hroute with hex | ⟨-, hnext⟩
    · exact .inr (.inr hex)
    · exact .inr (.inl hnext)

/-- `after_failure` leaves an instance that no longer runs alone, and moves a running one. -/
theorem afterFailure_move (h : afterFailure e env failure w = .ok (last, w')) :
    (w' = w ∧ last = .paused ∧ w.row.status ≠ .running) ∨
      Move e.spec w (.failure failure.step) w' ∧ (last = .compensate → w'.row.status = .compensating) := by
  unfold afterFailure at h
  split at h
  · rename_i hstatus
    simp only [pure_eq_ok, Prod.mk.injEq] at h
    exact .inl ⟨h.2.symm, h.1.symm, hstatus⟩
  · rename_i hstatus
    have running : w.row.status = .running := by simpa using hstatus
    right
    cases hkind : failure.kind with
    | business =>
      simp only [hkind] at h
      exact routeFailure_move running (fun outcome ho => .inr (.inl ho)) h
    | transient =>
      simp only [hkind] at h
      exact retryFailure_move running h
    | timedOut =>
      simp only [hkind] at h
      split at h
      · exact routeFailure_move running (fun outcome ho => .inl ho) h
      · exact retryFailure_move running h

/-! ## Waits, the sweep, compensation, `cancel` -/

/-- A wait is left along one of its two outcomes. -/
theorem leaveWait_ok {label : StepOutcome}
    {payload : Option Value} (kind : s.kind = .wait event key timeout onEvent onTimeout)
    (houtcome : outcome = onEvent.getD {} ∨ outcome = onTimeout.getD {})
    (h : leaveWait e env w s.name outcome label payload = .ok w') :
    ∃ next context, next ∈ s.kind.successors ∧ (e.spec.step next).isSome ∧
      w' = (w.logStep (nextSeq w.log) s.name label none).leave next context env.now := by
  unfold leaveWait at h
  simp only [bind_eq_ok, pure_eq_ok, Prod.exists] at h
  obtain ⟨context, next, happly, rfl⟩ := h
  obtain ⟨hnext, found, -⟩ := applyOutcome_ok happly
  refine ⟨next, _, ?_, found, rfl⟩
  rcases houtcome with rfl | rfl
  · cases onEvent with
    | none => simp at hnext
    | some o => simp only [Option.getD_some] at hnext; simp [kind, StepKind.successors, hnext]
  · cases onTimeout with
    | none => simp at hnext
    | some o => simp only [Option.getD_some] at hnext; simp [kind, StepKind.successors, hnext]

theorem silent_of_wait
    (kind : s.kind = .wait event key timeout onEvent onTimeout) : s.kind.performs = false := by
  rw [kind]; rfl

/-- The step an instance is on, as `resume` and the sweep look it up. -/
theorem on_of_bind (h : w.row.currentStep.bind e.spec.step = some s) : On e.spec w s := by
  rw [Option.bind_eq_some_iff] at h
  obtain ⟨name, hname, hs⟩ := h
  obtain rfl := WorkflowSpec.name_of_step hs
  exact ⟨hname, hs⟩

/-- A resumed instance was on a wait step whose key the record's payload builds, and left it. -/
theorem resumeOne_ok (waiting : w.row.status = .waiting)
    (h : resumeOne e env record w = .ok (some w')) :
    Move e.spec w .event w' ∧ ∃ s event key timeout onEvent onTimeout, On e.spec w s ∧
      s.kind = .wait event key timeout onEvent onTimeout ∧
      w.row.waitKey = some (eventKey e key record) ∧
      leaveWait e env w s.name (onEvent.getD {}) .resumed (some record.payload) = .ok w' := by
  unfold resumeOne at h
  cases hs : w.row.currentStep.bind e.spec.step with
  | none => simp [hs, pure_eq_ok] at h
  | some s =>
    simp only [hs] at h
    have on := on_of_bind hs
    cases kind : s.kind with
    | wait event key timeout onEvent onTimeout =>
      simp only [kind] at h
      split at h
      · simp [pure_eq_ok] at h
      · rename_i hkey
        simp only [bind_eq_ok, pure_eq_ok, Option.some.injEq] at h
        obtain ⟨w'', hleave, rfl⟩ := h
        obtain ⟨next, context, edge, found, rfl⟩ := leaveWait_ok kind (.inl rfl) hleave
        exact ⟨.resume context env.now waiting on (silent_of_wait kind) edge found,
          s, event, key, timeout, onEvent, onTimeout, on, kind, by simpa using hkey, hleave⟩
    | _ => simp [kind, pure_eq_ok] at h

/-- A claimed instance was due, and its status says what for. -/
theorem claimDue_ok (h : claimDue e env w = .ok (some (claim, w'))) :
    due e.cfg env.now w.row = true ∧
      ((w.row.status = .waiting ∧ w.row.waitDueAt.any (· ≤ env.clock) = true ∧ claim = .timedOut ∧
          ∃ s next context, On e.spec w s ∧ s.kind.performs = false ∧ next ∈ s.kind.successors ∧
            (e.spec.step next).isSome ∧
            w' = (w.logStep (nextSeq w.log) s.name .timedOut none).leave next context env.now) ∨
        (w.row.status = .waiting ∧ ¬ w.row.waitDueAt.any (· ≤ env.clock) = true ∧
          claim = .expired ∧ ∃ name text,
            w' = (w.logStep (nextSeq w.log) name .expired text).expire env.now) ∨
        (w.row.status = .running ∧ (claim = .retry ∨ claim = .recover) ∧
          w' = w.takeRunning env.now) ∨
        (w.row.status = .compensating ∧ claim = .compensate ∧ w' = w.touch env.now)) := by
  unfold claimDue at h
  split at h
  · simp [pure_eq_ok] at h
  · rename_i hdue
    have hdue : env.locked = false ∧ due e.cfg env.now w.row = true := by simpa using hdue
    refine ⟨hdue.2, ?_⟩
    cases hstatus : w.row.status with
    | waiting =>
      simp only [hstatus] at h
      split at h
      · rename_i hpassed
        cases hs : w.row.currentStep.bind e.spec.step with
        | none => simp [hs, failBusiness] at h
        | some s =>
          simp only [hs] at h
          cases kind : s.kind with
          | wait event key timeout onEvent onTimeout =>
            simp only [kind, bind_eq_ok, pure_eq_ok, Option.some.injEq, Prod.mk.injEq] at h
            obtain ⟨w'', hleave, rfl, rfl⟩ := h
            obtain ⟨next, context, edge, found, rfl⟩ := leaveWait_ok kind (.inr rfl) hleave
            exact .inl ⟨rfl, hpassed, rfl, s, next, context, on_of_bind hs, silent_of_wait kind,
              edge, found, rfl⟩
          | _ => simp [kind, failBusiness] at h
      · rename_i hpassed
        simp only [pure_eq_ok, Option.some.injEq, Prod.mk.injEq] at h
        obtain ⟨rfl, rfl⟩ := h
        exact .inr (.inl ⟨rfl, hpassed, rfl, _, _, rfl⟩)
    | running =>
      simp only [hstatus, pure_eq_ok, Option.some.injEq, Prod.mk.injEq] at h
      obtain ⟨rfl, rfl⟩ := h
      refine .inr (.inr (.inl ⟨rfl, ?_, rfl⟩))
      split
      · exact .inl rfl
      · exact .inr rfl
    | compensating =>
      simp only [hstatus, pure_eq_ok, Option.some.injEq, Prod.mk.injEq] at h
      obtain ⟨rfl, rfl⟩ := h
      exact .inr (.inr (.inr ⟨rfl, rfl, rfl⟩))
    | _ => simp [hstatus, pure_eq_ok] at h

theorem claimDue_move (h : claimDue e env w = .ok (some (claim, w'))) :
    Move e.spec w .nothing w' := by
  obtain ⟨-, ⟨waiting, -, -, s, next, context, on, silent, edge, found, rfl⟩ |
    ⟨waiting, -, -, name, text, rfl⟩ | ⟨running, -, rfl⟩ | ⟨compensating, -, rfl⟩⟩ :=
    claimDue_ok h
  · exact .timeOut context env.now waiting on silent edge found
  · exact .expire _ _ env.now waiting
  · exact .take env.now running
  · exact .touch env.now compensating

/-- A compensation step that ran had not run before, and is logged. -/
theorem compensateOne_some (h : compensateOne e env c w = .ok (some w')) :
    w.row.status.compensable = true ∧ hasRow w.log c.label .compensated = false ∧
      ∃ effect, w' = (w.execute ⟨c.label, true, effect⟩).logStep (nextSeq w.log) c.label
        .compensated none := by
  unfold compensateOne at h
  have key : (if hasRow w.log c.label .compensated then pure none
      else compensateBody e env c w) = .ok (some w') → hasRow w.log c.label .compensated = false ∧
      ∃ effect, w' = (w.execute ⟨c.label, true, effect⟩).logStep (nextSeq w.log) c.label
        .compensated none := by
    intro h
    split at h
    · simp [pure_eq_ok] at h
    · rename_i hfresh
      unfold compensateBody at h
      simp only [bind_eq_ok] at h
      obtain ⟨holds, -, h⟩ := h
      split at h
      · simp [pure_eq_ok] at h
      · simp only [bind_eq_ok, pure_eq_ok, Option.some.injEq, Prod.exists] at h
        obtain ⟨params, -, recordId, -, result, effect, -, rfl⟩ := h
        exact ⟨by simpa using hfresh, effect, rfl⟩
  cases hstatus : w.row.status with
  | compensating => simp only [hstatus] at h; exact ⟨rfl, key h⟩
  | failed => simp only [hstatus] at h; exact ⟨rfl, key h⟩
  | compensated => simp only [hstatus] at h; exact ⟨rfl, key h⟩
  | _ => simp [hstatus, pure_eq_ok] at h

theorem compensateOne_move (h : compensateOne e env c w = .ok (some w')) :
    Move e.spec w .nothing w' := by
  obtain ⟨status, fresh, effect, rfl⟩ := compensateOne_some h
  exact .compensate c effect status fresh

/-- The final write of a compensation run closes a failed or compensating instance, and no other. -/
theorem closeCompensation_move (failures : List String) :
    closeCompensation env failures w = w ∨ Move e.spec w .nothing (closeCompensation env failures w) := by
  unfold closeCompensation
  cases hstatus : w.row.status with
  | compensating =>
    right
    simp only
    split
    · exact .close _ _ (.inl hstatus) (.inl rfl)
    · split
      · exact .close _ _ (.inl hstatus) (.inr rfl)
      · exact .close _ _ (.inl hstatus) (.inr rfl)
  | failed =>
    right
    simp only
    split
    · exact .close _ _ (.inr hstatus) (.inl rfl)
    · split
      · exact .close _ _ (.inr hstatus) (.inr rfl)
      · exact .close _ _ (.inr hstatus) (.inr rfl)
  | _ => exact .inl rfl

theorem cancel_move (spec : WorkflowSpec) (env : Env) (w : Instance) :
    (cancel env w).2 = w ∨ Move spec w .nothing (cancel env w).2 := by
  unfold cancel
  split
  · exact .inl rfl
  · rename_i hlive
    exact .inr (.cancel _ _ (by simpa using hlive))

/-! ## `start` -/

/-- An instance as `start` inserts it. -/
structure Fresh (spec : WorkflowSpec) (w : Instance) : Prop where
  log : w.log = []
  executions : w.executions = []
  running : w.row.status = .running
  waitEvent : w.row.waitEvent = none
  waitKey : w.row.waitKey = none
  waitDueAt : w.row.waitDueAt = none
  current : ∃ s, w.row.currentStep = some s ∧ (spec.step s).isSome

/-- `start` inserts a fresh instance; without persistence it runs it to its end as well. -/
theorem start_ok (h : start e env envs record id = .ok w) :
    ∃ w₀, Fresh e.spec w₀ ∧ w₀.row.id = id ∧
      (e.spec.persistence = true ∧ w = w₀ ∨
        e.spec.persistence = false ∧ runInline e envs e.maxSteps w₀ = .ok w) := by
  unfold start at h
  simp only [bind_eq_ok] at h
  obtain ⟨row, hrow, h⟩ := h
  have hfresh : Fresh e.spec ⟨row, [], [], []⟩ ∧ row.id = id := by
    unfold startRow at hrow
    cases hs : e.spec.steps with
    | nil => simp [hs, failBusiness] at hrow
    | cons first rest =>
      simp only [hs, List.head?_cons, bind_eq_ok, pure_eq_ok] at hrow
      obtain ⟨extracted, -, deadline, -, rfl⟩ := hrow
      refine ⟨⟨rfl, rfl, rfl, rfl, rfl, rfl, first.name, rfl, ?_⟩, rfl⟩
      simp [WorkflowSpec.step, hs]
  refine ⟨⟨row, [], [], []⟩, hfresh.1, hfresh.2, ?_⟩
  split at h
  · rename_i hp
    simp only [pure_eq_ok] at h
    exact .inl ⟨hp, h.symm⟩
  · rename_i hp
    exact .inr ⟨by simpa using hp, h⟩

section

variable (fresh : ∀ {w}, Fresh e.spec w → J w)
  (move : ∀ {w w'}, w.row.status = .running → J w → Move e.spec w .nothing w' → J w')
  (route : ∀ {w} (f message next : String) (context : Value) (now : Time),
    w.row.status = .running → J w →
    J ((w.logStep (nextSeq w.log) f .failed (some message)).advance next context now))
include move route

/-- A law that the moves and the routes of an inline flow keep holds where the flow ends, and a
terminal step of a running instance ended it. -/
theorem runInline_ok (inline : e.spec.persistence = false) {n : ℕ} (hJ : J w)
    (running : w.row.status = .running) (h : runInline e envs n w = .ok w') :
    J w' ∧ ∃ w₀ env last, w₀.row.status = .running ∧ runOne e env w₀ = .ok (last, w') ∧
      (last = .finished ∨ last = .compensate) := by
  induction n generalizing w with
  | zero => simp [runInline, failBusiness] at h
  | succ n ih =>
    simp only [runInline] at h
    cases hone : runOne e (envs n) w with
    | ok r =>
      obtain ⟨last, w₁⟩ := r
      rcases runOne_move hone with ⟨-, -, hne⟩ | ⟨-, hmove, hreport⟩
      · exact absurd running hne
      · cases last with
        | advanced =>
          simp only [hone] at h
          exact ih (move running hJ hmove) hreport h
        | paused => simp [Reports, inline] at hreport
        | finished =>
          simp only [hone, Except.ok.injEq] at h
          subst h
          exact ⟨move running hJ hmove, w, _, _, running, hone, .inl rfl⟩
        | compensate =>
          simp only [hone, Except.ok.injEq] at h
          subst h
          exact ⟨move running hJ hmove, w, _, _, running, hone, .inr rfl⟩
    | error f =>
      simp only [hone] at h
      split at h
      · split at h
        · exact ih (route _ _ _ _ _ running hJ) running h
        · cases h
      · cases h

include fresh in
/-- A law of fresh instances that the moves and the inline routes keep holds of every instance that
`start` commits. -/
theorem start_invariant (h : start e env envs record id = .ok w) : J w := by
  obtain ⟨w₀, hfresh, -, ⟨-, rfl⟩ | ⟨inline, hrun⟩⟩ := start_ok h
  · exact fresh hfresh
  · exact (runInline_ok move route inline (fresh hfresh) hfresh.running hrun).1

end

end Refinement

end Backbone.Workflow
