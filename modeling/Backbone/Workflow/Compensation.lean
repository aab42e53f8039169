import Backbone.Workflow.Lifecycle

/-!
# What `compensated` promises

Compensation runs overlap: with each other, with the sweep, with a cancel, and, through the public
`compensate`, with the steps themselves. Each of a run's transactions reads the status again, but
`compensate_one` passes over a step in silence when the instance is not being compensated, and the
final write only asks whether it is by then. A run that is called while the instance still runs, and
ends after it failed, closes it as compensated with nothing undone (`compensated_early`).

`compensated_undone` is the law for the runs where `compensate` is only called on an instance that has
stopped: its conditions depend on the context and the log, neither of which changes any more, so every
run passes the same verdict on a step and none can close the instance over an open one.
-/

namespace Backbone.Workflow

/-- The answer of a condition, given the stored context and the completed steps. -/
abbrev CondFn := Expr → Value → List String → Except String Value

/-- The compensation conditions depend only on the stored context and the step log. -/
def CondOnly (cond : CondFn) (env : Env) : Prop :=
  ∀ x scope, env.eval .cond x scope = cond x scope.context scope.completed

/-- The condition of a compensation step. -/
def condition (cond : CondFn) (w : Instance) (c : CompStep) : Except String Bool :=
  match c.cond with
  | none => .ok true
  | some x => (cond x w.row.context (completed w.log)).map truthy

/-- What an instance that is `compensated` promises. -/
structure Undone (cond : CondFn) (spec : WorkflowSpec) (w : Instance) : Prop where
  /-- Every compensation step whose condition holds is logged as compensated. -/
  compensated : ∀ c ∈ spec.compensation, condition cond w c = .ok true →
    hasRow w.log c.label .compensated = true
  /-- None failed and was left at that. -/
  failed : ∀ c ∈ spec.compensation, hasRow w.log c.label .compensationFailed = true →
    hasRow w.log c.label .compensated = true

/-- The conditions of a workflow without any: the answer is never asked for. -/
def CondFn.silent : CondFn := fun _ _ _ => .ok .null

/-- `compensate` passes over `release` while the order runs; then the reservation is refused, the
order is rejected and about to be compensated, and the run closes it. -/
def earlyCompensate : List Act :=
  [.placeOrder, .compensate 0, .txn 0 .calm, .run 1, .txn 1 .refusing, .txn 1 .calm, .txn 1 .calm,
    .txn 0 .calm]

/-- The order ends compensated, and `release` never ran; no condition was asked for anything but the
context and the log. -/
theorem compensated_early : (∀ p env, Act.txn p env ∈ earlyCompensate → CondOnly .silent env) ∧
    ¬ ∀ w, (World.after orders earlyCompensate).inst = some w →
      w.row.status = .compensated → Undone .silent orderSpec w := by
  refine ⟨fun p env hmem x scope => ?_, fun h => ?_⟩
  · simp only [earlyCompensate, List.mem_cons, Act.placeOrder, reduceCtorEq, Act.txn.injEq, false_or,
      List.not_mem_nil, or_false] at hmem
    rcases hmem with ⟨-, rfl⟩ | ⟨-, rfl⟩ | ⟨-, rfl⟩ | ⟨-, rfl⟩ | ⟨-, rfl⟩ <;> rfl
  have hstate : (World.after orders earlyCompensate).inst.map (fun w =>
      (w.row.status, hasRow w.log "compensate:release" .compensated)) =
      some (.compensated, false) := by decide
  obtain ⟨w, hw, hs⟩ := Option.map_eq_some_iff.mp hstate
  simp only [Prod.mk.injEq] at hs
  have hrow := (h w hw hs.1).compensated ⟨"release", none, "release", none, none, [], none⟩
    (by simp [orderSpec]) rfl
  have hlabel : CompStep.label ⟨"release", none, "release", none, none, [], none⟩ =
      "compensate:release" := by decide
  rw [hlabel, hs.2] at hrow
  cases hrow

/-! ## One compensation step -/

section

variable {cond : CondFn} {e : Engine} {env : Env} {w w' : Instance} {c : CompStep}
  {spec : WorkflowSpec} {x : Proc} {procs : ℕ → Proc} {W : World} {failures : List String}
  {r : Report}

/-- A compensation step no run has to do anything about any more. -/
def Settled (cond : CondFn) (w : Instance) (c : CompStep) : Prop :=
  hasRow w.log c.label .compensated = true ∨ condition cond w c = .ok false

theorem holdsIfAny_eq (hpure : CondOnly cond env) :
    env.holdsIfAny .cond c.label "condition" c.cond
      (scopeOf env w.row.context (w.row.context.getOrNull "_event") w.log) =
    match condition cond w c with
    | .ok b => .ok b
    | .error m => failBusiness c.label ("condition" ++ ": " ++ m) := by
  unfold Env.holdsIfAny condition
  cases c.cond with
  | none => rfl
  | some x =>
    simp only [Env.holdsAt, hpure x, scopeOf]
    cases cond x w.row.context (completed w.log) <;> rfl

/-- A body that passed the two checks runs the step when its condition holds, passes over it when it
does not, and fails otherwise. -/
theorem compensateBody_condition (hpure : CondOnly cond env) :
    (compensateBody e env c w = .ok none → condition cond w c = .ok false) ∧
    (∀ f, compensateBody e env c w = .error f → condition cond w c ≠ .ok false) := by
  unfold compensateBody
  simp only [holdsIfAny_eq hpure]
  cases hcond : condition cond w c with
  | error m => simp [failBusiness, bind, Except.bind]
  | ok b =>
    cases b with
    | false => simp [bind, Except.bind, pure, Except.pure]
    | true =>
      refine ⟨fun h => ?_, fun _ _ => by simp⟩
      simp only [bind_eq_ok, Except.ok.injEq] at h
      obtain ⟨_, rfl, h⟩ := h
      simp only [Bool.not_true, Bool.false_eq_true, if_false, bind_eq_ok, pure_eq_ok, Prod.exists] at h
      obtain ⟨_, -, _, -, _, _, -, h⟩ := h
      cases h

theorem compensateOne_eq (h : w.row.status.compensable = true) : compensateOne e env c w =
    if hasRow w.log c.label .compensated then pure none else compensateBody e env c w := by
  unfold compensateOne
  cases hs : w.row.status <;> simp_all [Status.compensable]

theorem compensateOne_eq_none (h : w.row.status.compensable = false) :
    compensateOne e env c w = .ok none := by
  unfold compensateOne
  cases hs : w.row.status <;> simp_all [Status.compensable, pure, Except.pure]

/-- A step that is passed over is settled, if the instance is being compensated. -/
theorem settled_of_none (hpure : CondOnly cond env) (h : compensateOne e env c w = .ok none)
    (hs : w.row.status.compensable = true) : Settled cond w c := by
  rw [compensateOne_eq hs] at h
  split at h
  · rename_i hrow
    exact .inl hrow
  · exact .inr ((compensateBody_condition hpure).1 h)

/-- A step that fails is one whose condition is not false. -/
theorem condition_of_error (hpure : CondOnly cond env) {f : StepFailure}
    (h : compensateOne e env c w = .error f) : condition cond w c ≠ .ok false := by
  cases hs : w.row.status.compensable with
  | false =>
    rw [compensateOne_eq_none hs] at h
    cases h
  | true =>
    rw [compensateOne_eq hs] at h
    split at h
    · cases h
    · exact (compensateBody_condition hpure).2 f h

/-- A step that runs is logged. -/
theorem hasRow_of_some (h : compensateOne e env c w = .ok (some w')) :
    hasRow w'.log c.label .compensated = true := by
  obtain ⟨-, -, effect, rfl⟩ := compensateOne_some h
  exact hasRow_iff.mpr ⟨_, List.mem_append_right _ (List.mem_singleton_self _), rfl, rfl⟩

/-! ## An instance that has stopped -/

/-- The statuses of an instance that still has steps to run. -/
def Status.active : Status → Bool
  | .running | .waiting => true
  | _ => false

/-- What no transaction changes about an instance that has stopped, and what only grows. -/
structure Stopped (w w' : Instance) : Prop where
  active : w'.row.status.active = false
  compensable : w'.row.status.compensable = true → w.row.status.compensable = true
  context : w'.row.context = w.row.context
  completed : completed w'.log = completed w.log
  rows : ∀ step, hasRow w.log step .compensated = true → hasRow w'.log step .compensated = true

theorem Stopped.refl (h : w.row.status.active = false) : Stopped w w :=
  ⟨h, id, rfl, rfl, fun _ => id⟩

/-- A move of an instance that has stopped leaves its conditions alone. -/
theorem Move.stopped (m : Move spec w r w') (h : w.row.status.active = false) : Stopped w w' := by
  have hrunning : w.row.status ≠ .running := by intro hs; simp [hs, Status.active] at h
  have hwaiting : w.row.status ≠ .waiting := by intro hs; simp [hs, Status.active] at h
  cases m with
  | touch now compensating => exact ⟨h, id, rfl, rfl, fun _ => id⟩
  | compensate c effect status fresh =>
    exact ⟨h, id, rfl, completed_append rfl, fun _ => hasRow_append _⟩
  | compensationFailed c message =>
    exact ⟨h, id, rfl, completed_append rfl, fun _ => hasRow_append _⟩
  | close error now was ends =>
    have hcomp : w.row.status.compensable = true := by rcases was with was | was <;> rw [was] <;> rfl
    refine ⟨?_, fun _ => hcomp, rfl, rfl, fun _ => id⟩
    rcases ends with rfl | rfl <;> rfl
  | cancel step now live =>
    exact ⟨rfl, nofun, rfl, completed_append rfl, fun _ => hasRow_append _⟩
  | skip context now running => exact absurd running hrunning
  | perform effect context now running => exact absurd running hrunning
  | branch context now running => exact absurd running hrunning
  | wait waitKey due now running => exact absurd running hrunning
  | terminal emitted reason error context now running => exact absurd running hrunning
  | route message context now running => exact absurd running hrunning
  | retry message attempts due now running => exact absurd running hrunning
  | giveUp message attempts now running => exact absurd running hrunning
  | take now running => exact absurd running hrunning
  | resume context now waiting => exact absurd waiting hwaiting
  | timeOut context now waiting => exact absurd waiting hwaiting
  | expire step reason now waiting => exact absurd waiting hwaiting

theorem Stopped.condition_eq (h : Stopped w w') (c : CompStep) :
    condition cond w' c = condition cond w c := by
  unfold condition
  rw [h.context, h.completed]

theorem Stopped.settled (h : Stopped w w') (hs : Settled cond w c) : Settled cond w' c :=
  hs.imp (h.rows _) (h.condition_eq c).trans

/-! ## Who compensates -/

def Proc.compensates : Proc → Bool
  | .compensating _ _ | .recording _ _ _ _ => true
  | _ => false

theorem Proc.drive_compensates : (Proc.drive e).compensates = false := by
  unfold Proc.drive
  split <;> rfl

/-- A process that does not compensate starts to only by leaving the instance to be compensated. -/
theorem Proc.txn_compensates (hx : x.compensates = false) (h : (x.txn e env w).1.compensates = true) :
    (x.txn e env w).1 = .compensate e ∧ (x.txn e env w).2.row.status = .compensating := by
  have hstep : ∀ n last, (Proc.afterStep e n last).compensates = true → last = .compensate := by
    intro n last hc
    cases last with
    | advanced =>
      simp only [Proc.afterStep] at hc
      split at hc <;> cases hc
    | compensate => rfl
    | paused => cases hc
    | finished => cases hc
  cases x with
  | driving n =>
    simp only [Proc.txn] at h ⊢
    cases hone : runOne e env w with
    | error f => simp [hone, Proc.compensates] at h
    | ok r =>
      obtain ⟨last, w₁⟩ := r
      simp only [hone] at h ⊢
      obtain rfl := hstep n last h
      rcases runOne_move hone with ⟨-, hpaused, -⟩ | ⟨-, -, hreport⟩
      · cases hpaused
      · exact ⟨rfl, hreport⟩
  | failed n f =>
    simp only [Proc.txn] at h ⊢
    cases hfail : afterFailure e env f w with
    | error f => simp [hfail, Proc.compensates] at h
    | ok r =>
      obtain ⟨last, w₁⟩ := r
      simp only [hfail] at h ⊢
      obtain rfl := hstep n last h
      rcases afterFailure_move hfail with ⟨-, hpaused, -⟩ | ⟨-, hcomp⟩
      · cases hpaused
      · exact ⟨rfl, hcomp rfl⟩
  | runaway =>
    simp only [Proc.txn] at h ⊢
    cases hfail : afterFailure e env (runawayFailure e) w with
    | error f => simp [hfail, Proc.compensates] at h
    | ok r =>
      obtain ⟨last, w₁⟩ := r
      cases last with
      | compensate =>
        rcases afterFailure_move hfail with ⟨-, hpaused, -⟩ | ⟨-, hcomp⟩
        · cases hpaused
        · exact ⟨rfl, hcomp rfl⟩
      | _ => simp [hfail, Proc.compensates] at h
  | sweeping =>
    simp only [Proc.txn] at h ⊢
    cases hclaim : claimDue e env w with
    | error f => simp [hclaim, Proc.compensates] at h
    | ok r =>
      cases r with
      | none => simp [hclaim, Proc.compensates] at h
      | some r =>
        obtain ⟨claim, w₁⟩ := r
        simp only [hclaim] at h ⊢
        cases claim with
        | compensate =>
          obtain ⟨-, ⟨-, -, hkind, -⟩ | ⟨-, -, hkind, -⟩ | ⟨-, hkind | hkind, -⟩ |
            ⟨hcompensating, -, rfl⟩⟩ := claimDue_ok hclaim
          any_goals cases hkind
          exact ⟨rfl, hcompensating⟩
        | expired => cases h
        | _ => exact absurd (Proc.drive_compensates.symm.trans h) (by simp)
  | idle => cases h
  | compensating rest failures => cases hx
  | recording c message rest failures => cases hx

/-- Of an instance that has stopped, a process that does not compensate at most writes `updated_at`. -/
theorem Proc.txn_stopped (hx : x.compensates = false) (h : w.row.status.active = false) :
    (x.txn e env w).2.row.status = w.row.status := by
  have hrunning : w.row.status ≠ .running := by intro hs; simp [hs, Status.active] at h
  have hafter : ∀ f, afterFailure e env f w = .ok (.paused, w) := by
    intro f
    simp [afterFailure, hrunning, pure, Except.pure]
  cases x with
  | idle => rfl
  | driving n => simp [Proc.txn, runOne, hrunning, pure, Except.pure]
  | failed n f => simp [Proc.txn, hafter]
  | runaway => simp [Proc.txn, hafter]
  | sweeping =>
    simp only [Proc.txn]
    cases hclaim : claimDue e env w with
    | error f => rfl
    | ok r =>
      cases r with
      | none => rfl
      | some r =>
        obtain ⟨-, ⟨waiting, -⟩ | ⟨waiting, -⟩ | ⟨running, -⟩ | ⟨-, -, hr⟩⟩ := claimDue_ok hclaim
        · simp [waiting, Status.active] at h
        · simp [waiting, Status.active] at h
        · exact absurd running hrunning
        · simp only [hr, Instance.touch]
  | compensating rest failures => cases hx
  | recording c message rest failures => cases hx

/-- A compensation step writes nothing to the row. -/
theorem compensateOne_row (h : compensateOne e env c w = .ok (some w')) : w'.row = w.row := by
  obtain ⟨-, -, effect, rfl⟩ := compensateOne_some h
  rfl

/-- Only a run without failures closes an instance as compensated. -/
theorem closeCompensation_compensated
    (h : (closeCompensation env failures w).row.status = .compensated) :
    w.row.status = .compensated ∨ w.row.status.compensable = true ∧ failures = [] := by
  unfold closeCompensation at h
  have hclose : ∀ (hs : w.row.status.compensable = true),
      (if failures.isEmpty && (pendingCompensations w.log).isEmpty then
        w.close .compensated none env.now
      else if !failures.isEmpty then
        w.close .failed (some ("compensation incomplete: " ++ String.intercalate "; " failures)) env.now
      else w.close .failed (some ("compensation incomplete: " ++
        String.intercalate ", " (pendingCompensations w.log))) env.now).row.status = .compensated →
      w.row.status = .compensated ∨ w.row.status.compensable = true ∧ failures = [] := by
    intro hs h
    split at h
    · rename_i hempty
      simp only [Bool.and_eq_true, List.isEmpty_iff] at hempty
      exact .inr ⟨hs, hempty.1⟩
    · split at h <;> cases h
  cases hs : w.row.status with
  | compensating => simp only [hs] at h; simpa [hs] using hclose (by rw [hs]; rfl) h
  | failed => simp only [hs] at h; simpa [hs] using hclose (by rw [hs]; rfl) h
  | compensated => exact .inl rfl
  | _ => simp only [hs] at h; cases h

/-- A row of a failed compensation is new only where one is recorded. -/
theorem Move.failedRow (m : Move spec w r w') {row : StepRow} (hrow : row ∈ w'.log)
    (ho : row.outcome = .compensationFailed) :
    row ∈ w.log ∨ ∃ c, r = .compensation c ∧ c.label = row.step := by
  have old : ∀ new : StepRow, row ∈ w.log ++ [new] → new.outcome ≠ .compensationFailed →
      row ∈ w.log ∨ ∃ c, r = .compensation c ∧ c.label = row.step := by
    intro new hmem hne
    rcases List.mem_append.mp hmem with hmem | hmem
    · exact .inl hmem
    · exact absurd (List.mem_singleton.mp hmem ▸ ho) hne
  cases m with
  | compensationFailed c message =>
    rcases List.mem_append.mp hrow with hmem | hmem
    · exact .inl hmem
    · exact .inr ⟨c, rfl, by rw [List.mem_singleton.mp hmem]⟩
  | take => exact .inl hrow
  | touch => exact .inl hrow
  | close => exact .inl hrow
  | _ => exact old _ hrow nofun

theorem Proc.recording_of_reported (h : x.reported e = .compensation c) :
    ∃ message rest failures, x = .recording c message rest failures := by
  cases x with
  | recording d message rest failures =>
    simp only [Proc.reported, Report.compensation.injEq] at h
    exact ⟨message, rest, failures, by rw [h]⟩
  | _ => cases h

/-! ## The invariant -/

/-- A compensation step of the spec whose condition is not false. -/
def OpenStep (cond : CondFn) (spec : WorkflowSpec) (w : Instance) (c : CompStep) : Prop :=
  c ∈ spec.compensation ∧ condition cond w c ≠ .ok false

/-- Where a compensation run may stand: with no failures, what it has passed is settled. -/
def ProcOk (cond : CondFn) (spec : WorkflowSpec) (w : Instance) : Proc → Prop
  | .compensating rest failures => (∀ c ∈ rest, c ∈ spec.compensation) ∧
    (w.row.status.compensable = true → failures = [] →
      ∀ c ∈ spec.compensation, c ∈ rest ∨ Settled cond w c)
  | .recording c _ rest _ => OpenStep cond spec w c ∧ ∀ c ∈ rest, c ∈ spec.compensation
  | _ => True

/-- An instance that has stopped, with the runs that work on it. -/
structure Closing (cond : CondFn) (spec : WorkflowSpec) (w : Instance) (procs : ℕ → Proc) : Prop where
  failedRows : ∀ r ∈ w.log, r.outcome = .compensationFailed →
    ∃ c, OpenStep cond spec w c ∧ c.label = r.step
  procs : ∀ p, ProcOk cond spec w (procs p)
  done : w.row.status = .compensated → ∀ c ∈ spec.compensation, Settled cond w c

/-- Before the instance stops nobody compensates it. -/
structure NotYet (W : World) : Prop where
  procs : ∀ p, (W.procs p).compensates = false
  rows : ∀ w, W.inst = some w → ∀ r ∈ w.log, r.outcome ≠ .compensationFailed

structure CompInv (cond : CondFn) (e : Engine) (W : World) : Prop where
  closing : ∀ w, W.inst = some w → w.row.status.active = false → Closing cond e.spec w W.procs
  notYet : (∀ w, W.inst = some w → w.row.status.active = true) → NotYet W

theorem Stopped.openStep (h : Stopped w w') (hc : OpenStep cond spec w c) :
    OpenStep cond spec w' c :=
  ⟨hc.1, by rw [h.condition_eq]; exact hc.2⟩

theorem ProcOk.stopped (h : Stopped w w') (hx : ProcOk cond spec w x) : ProcOk cond spec w' x := by
  cases x with
  | compensating rest failures =>
    refine ⟨hx.1, fun hcomp hf c hc => ?_⟩
    exact (hx.2 (h.compensable hcomp) hf c hc).imp id h.settled
  | recording c message rest failures => exact ⟨h.openStep hx.1, hx.2⟩
  | _ => trivial

theorem ProcOk.of_not (h : x.compensates = false) : ProcOk cond spec w x := by
  cases x with
  | compensating rest failures => cases h
  | recording c message rest failures => cases h
  | _ => trivial

/-- A run that starts has everything to do. -/
theorem ProcOk.compensate : ProcOk cond e.spec w (.compensate e) :=
  ⟨fun _ hc => List.mem_reverse.mp hc, fun _ _ _ hc => .inl (List.mem_reverse.mpr hc)⟩

/-- A run that goes on from a failure has one to report. -/
theorem ProcOk.afterRecord {message : String} {rest : List CompStep}
    (h : ProcOk cond spec w (.recording c message rest failures)) :
    ProcOk cond spec w' (.afterRecord c message rest failures) :=
  ⟨h.2, fun _ hf => by simp at hf⟩

/-- A transaction of a run leaves it where it may stand. -/
theorem ProcOk.txn (hpure : CondOnly cond env) (h : w.row.status.active = false)
    (hx : ProcOk cond e.spec w x) : ProcOk cond e.spec (x.txn e env w).2 (x.txn e env w).1 := by
  have other : x.compensates = false → ProcOk cond e.spec (x.txn e env w).2 (x.txn e env w).1 := by
    intro hno
    cases hc : (x.txn e env w).1.compensates with
    | false => exact .of_not hc
    | true =>
      rw [(Proc.txn_compensates hno hc).1]
      exact .compensate
  cases x with
  | compensating rest failures =>
    cases rest with
    | nil => trivial
    | cons c rest =>
      obtain ⟨hmem, hsettled⟩ := hx
      have hrest : ∀ d ∈ rest, d ∈ e.spec.compensation := fun d hd => hmem d (List.mem_cons_of_mem _ hd)
      simp only [Proc.txn]
      cases hone : compensateOne e env c w with
      | error f => exact ⟨⟨hmem c List.mem_cons_self, condition_of_error hpure hone⟩, hrest⟩
      | ok r =>
        cases r with
        | none =>
          refine ⟨hrest, fun hcomp hf d hd => ?_⟩
          rcases hsettled hcomp hf d hd with hin | hs
          · rcases List.mem_cons.mp hin with rfl | hin
            · exact .inr (settled_of_none hpure hone hcomp)
            · exact .inl hin
          · exact .inr hs
        | some w₁ =>
          have hstop := (compensateOne_move hone).stopped h
          refine ⟨hrest, fun hcomp hf d hd => ?_⟩
          rcases hsettled (hstop.compensable hcomp) hf d hd with hin | hs
          · rcases List.mem_cons.mp hin with rfl | hin
            · exact .inr (.inl (hasRow_of_some hone))
            · exact .inl hin
          · exact .inr (hstop.settled hs)
  | recording c message rest failures => exact hx.afterRecord
  | idle => exact other rfl
  | driving n => exact other rfl
  | failed n f => exact other rfl
  | runaway => exact other rfl
  | sweeping => exact other rfl

/-- Only the end of a run closes an instance as compensated, and only with everything settled. -/
theorem Closing.done_txn (h : Closing cond e.spec w procs) (p : ℕ)
    (hstop : w.row.status.active = false) (hs : ((procs p).txn e env w).2.row.status = .compensated) :
    ∀ c ∈ e.spec.compensation, Settled cond w c := by
  cases hx : procs p with
  | compensating rest failures =>
    cases rest with
    | nil =>
      rw [hx] at hs
      rcases closeCompensation_compensated hs with hs | ⟨hcomp, hf⟩
      · exact h.done hs
      · intro c hc
        have hp := h.procs p
        rw [hx] at hp
        exact (hp.2 hcomp hf c hc).resolve_left (List.not_mem_nil)
    | cons c rest =>
      refine h.done ?_
      rw [hx] at hs
      simp only [Proc.txn] at hs
      cases hone : compensateOne e env c w with
      | error f => simpa only [hone] using hs
      | ok r =>
        cases r with
        | none => simpa only [hone] using hs
        | some w₁ =>
          rw [← compensateOne_row hone]
          simpa only [hone] using hs
  | recording c message rest failures =>
    rw [hx] at hs
    exact h.done hs
  | _ =>
    have hkept : ((procs p).txn e env w).2.row.status = w.row.status :=
      Proc.txn_stopped (by rw [hx]; rfl) hstop
    exact h.done (hkept ▸ hs)

/-- A transaction on an instance that has stopped. -/
theorem Closing.txn (hpure : CondOnly cond env) (h : Closing cond e.spec w procs)
    (hstop : w.row.status.active = false) (p : ℕ) :
    ((procs p).txn e env w).2.row.status.active = false ∧
    Closing cond e.spec ((procs p).txn e env w).2
      (Function.update procs p ((procs p).txn e env w).1) := by
  have hmove : ((procs p).txn e env w).2 = w ∨
      Move e.spec w ((procs p).reported e) ((procs p).txn e env w).2 := Proc.txn_move (procs p)
  have hst : Stopped w ((procs p).txn e env w).2 := by
    rcases hmove with hsame | m
    · rw [hsame]; exact .refl hstop
    · exact m.stopped hstop
  refine ⟨hst.active, ?_, fun q => ?_, fun hs c hc => hst.settled (h.done_txn p hstop hs c hc)⟩
  · intro row hrow ho
    have hold : row ∈ w.log ∨ ∃ c, (procs p).reported e = .compensation c ∧ c.label = row.step := by
      rcases hmove with hsame | m
      · rw [hsame] at hrow; exact .inl hrow
      · exact m.failedRow hrow ho
    rcases hold with hold | ⟨c, hreport, hlabel⟩
    · obtain ⟨c, hopen, hlabel⟩ := h.failedRows row hold ho
      exact ⟨c, hst.openStep hopen, hlabel⟩
    · obtain ⟨message, rest, failures, hx⟩ := Proc.recording_of_reported hreport
      have hp := h.procs p
      rw [hx] at hp
      exact ⟨c, hst.openStep hp.1, hlabel⟩
  · by_cases hq : q = p
    · subst hq
      rw [Function.update_self]
      exact ProcOk.txn hpure hstop (h.procs q)
    · rw [Function.update_of_ne hq]
      exact (h.procs q).stopped hst

/-- An instance that has just stopped: nothing has failed yet, and whoever compensates has everything
to do. -/
theorem Closing.fresh (rows : ∀ r ∈ w.log, r.outcome ≠ .compensationFailed)
    (hprocs : ∀ p, (procs p).compensates = false ∨ procs p = .compensate e)
    (hs : w.row.status ≠ .compensated) : Closing cond e.spec w procs where
  failedRows := fun r hr ho => absurd ho (rows r hr)
  procs := by
    intro p
    rcases hprocs p with hno | hstart
    · exact .of_not hno
    · rw [hstart]; exact .compensate
  done := fun h => absurd h hs

theorem Status.canBecome_of_active {s : Status} (h : s.active = true) :
    s.canBecome .compensated = false := by
  cases s <;> simp_all [Status.active, Status.canBecome]

/-- A transaction on an instance that still runs or waits. -/
theorem NotYet.txn (h : NotYet W) (hw : W.inst = some w) (hactive : w.row.status.active = true)
    (p : ℕ) : CompInv cond e
      ({ W with inst := some ((W.procs p).txn e env w).2 }.setProc p ((W.procs p).txn e env w).1) := by
  have hmove : ((W.procs p).txn e env w).2 = w ∨
      Move e.spec w ((W.procs p).reported e) ((W.procs p).txn e env w).2 :=
    Proc.txn_move (W.procs p)
  have rows : ∀ r ∈ ((W.procs p).txn e env w).2.log, r.outcome ≠ .compensationFailed := by
    intro r hr ho
    rcases hmove with hsame | m
    · rw [hsame] at hr; exact h.rows w hw r hr ho
    · rcases m.failedRow hr ho with hold | ⟨c, hreport, -⟩
      · exact h.rows w hw r hold ho
      · obtain ⟨message, rest, failures, hx⟩ := Proc.recording_of_reported hreport
        have := h.procs p
        rw [hx] at this
        cases this
  have hstatus : ((W.procs p).txn e env w).2.row.status ≠ .compensated := by
    intro hs
    rcases hmove with hsame | m
    · rw [hsame] at hs; rw [hs] at hactive; cases hactive
    · have := m.canBecome
      rw [hs, Status.canBecome_of_active hactive] at this
      cases this
  constructor
  · rintro w' ⟨⟩ -
    refine .fresh rows (fun q => ?_) hstatus
    by_cases hq : q = p
    · subst hq
      simp only [World.setProc, Function.update_self]
      cases hc : ((W.procs q).txn e env w).1.compensates with
      | false => exact .inl rfl
      | true => exact .inr (Proc.txn_compensates (h.procs q) hc).1
    · simp only [World.setProc, Function.update_of_ne hq]
      exact .inl (h.procs q)
  · intro hstill
    refine ⟨fun q => ?_, by rintro w' ⟨⟩; exact rows⟩
    by_cases hq : q = p
    · subst hq
      simp only [World.setProc, Function.update_self]
      by_contra hc
      have hcomp := (Proc.txn_compensates (h.procs q) (by simpa using hc)).2
      have := hstill _ rfl
      rw [hcomp] at this
      cases this
    · simp only [World.setProc, Function.update_of_ne hq]
      exact h.procs q

section

variable (h : CompInv cond e W) (p : ℕ)
include h

/-- A process goes on where it may stand. -/
theorem CompInv.setProc (ok : ∀ w, W.inst = some w → ProcOk cond e.spec w x)
    (stopped : x.compensates = true → ∃ w, W.inst = some w ∧ w.row.status.active = false) :
    CompInv cond e (W.setProc p x) := by
  constructor
  · intro w hw hstop
    obtain ⟨hrows, hprocs, hdone⟩ := h.closing w hw hstop
    refine ⟨hrows, fun q => ?_, hdone⟩
    by_cases hq : q = p
    · subst hq
      simp only [World.setProc, Function.update_self]
      exact ok w hw
    · simp only [World.setProc, Function.update_of_ne hq]
      exact hprocs q
  · intro hstill
    obtain ⟨hprocs, hrows⟩ := h.notYet hstill
    refine ⟨fun q => ?_, hrows⟩
    by_cases hq : q = p
    · subst hq
      simp only [World.setProc, Function.update_self]
      by_contra hc
      obtain ⟨w, hw, hstop⟩ := stopped (by simpa using hc)
      have := hstill w hw
      rw [hstop] at this
      cases this
    · simp only [World.setProc, Function.update_of_ne hq]
      exact hprocs q

theorem CompInv.setIdle (hx : x.compensates = false) : CompInv cond e (W.setProc p x) :=
  h.setProc p (fun _ _ => .of_not hx) (fun hc => by rw [hx] at hc; cases hc)

theorem CompInv.call (hx : x.compensates = false ∨
      x = .compensate e ∧ ∀ w, W.inst = some w → w.row.status.active = false) :
    CompInv cond e (W.call p x) := by
  unfold World.call
  split
  · rename_i w _ hw
    rcases hx with hx | ⟨rfl, hstop⟩
    · exact h.setIdle p hx
    · exact h.setProc p (fun _ _ => .compensate) fun _ => ⟨w, hw, hstop w hw⟩
  · exact h

/-- A move that records no failure of a compensation and closes nothing. -/
theorem CompInv.move (hw : W.inst = some w) {report : Report}
    (m : Move e.spec w report w') (hreport : ∀ c, report ≠ .compensation c)
    (hs : w'.row.status = .compensated → w.row.status = .compensated) :
    CompInv cond e { W with inst := some w' } := by
  have hrow : ∀ r ∈ w'.log, r.outcome = .compensationFailed → r ∈ w.log := by
    intro r hr ho
    rcases m.failedRow hr ho with hold | ⟨c, hc, -⟩
    · exact hold
    · exact absurd hc (hreport c)
  cases hactive : w.row.status.active with
  | false =>
    have hst := m.stopped hactive
    obtain ⟨hrows, hprocs, hdone⟩ := h.closing w hw hactive
    constructor
    · rintro _ ⟨⟩ -
      refine ⟨fun r hr ho => ?_, fun p => (hprocs p).stopped hst,
        fun hc c hmem => hst.settled (hdone (hs hc) c hmem)⟩
      obtain ⟨c, hopen, hlabel⟩ := hrows r (hrow r hr ho) ho
      exact ⟨c, hst.openStep hopen, hlabel⟩
    · intro hstill
      have := hstill w' rfl
      rw [hst.active] at this
      cases this
  | true =>
    obtain ⟨hprocs, hrows⟩ := h.notYet fun w₁ hw₁ => by
      obtain rfl := Option.some.inj (hw.symm.trans hw₁)
      exact hactive
    have rows : ∀ r ∈ w'.log, r.outcome ≠ .compensationFailed :=
      fun r hr ho => hrows w hw r (hrow r hr ho) ho
    constructor
    · rintro _ ⟨⟩ -
      refine .fresh rows (fun p => .inl (hprocs p)) fun hc => ?_
      rw [hs hc] at hactive
      cases hactive
    · rintro -
      exact ⟨hprocs, by rintro _ ⟨⟩; exact rows⟩

end

/-- `start` commits nothing that has to do with compensation, but for the status. -/
theorem start_uncompensated {envs : ℕ → Env} {record : OutboxRecord} {id : Uuid}
    (h : start e env envs record id = .ok w) :
    (∀ r ∈ w.log, r.outcome ≠ .compensationFailed) ∧ w.row.status ≠ .compensated := by
  refine ⟨?_, ?_⟩
  · refine start_invariant (J := fun w => ∀ r ∈ w.log, r.outcome ≠ .compensationFailed) ?_ ?_ ?_ h
    · intro w hfresh r hr
      rw [hfresh.log] at hr
      cases hr
    · intro w w' _ hJ m r hr ho
      rcases m.failedRow hr ho with hold | ⟨c, hreport, -⟩
      · exact hJ r hold ho
      · cases hreport
    · intro w f message next context now _ hJ r hr
      rcases List.mem_append.mp hr with hr | hr
      · exact hJ r hr
      · rw [List.mem_singleton.mp hr]; nofun
  · obtain ⟨w₀, hfresh, -, ⟨-, rfl⟩ | ⟨inline, hrun⟩⟩ := start_ok h
    · rw [hfresh.running]; nofun
    · obtain ⟨-, w₁, env₁, last, running, hone, hlast⟩ := runInline_ok (J := fun _ => True)
        (fun _ _ _ => trivial) (fun _ _ _ _ _ _ _ => trivial) inline trivial hfresh.running hrun
      intro hs
      rcases runOne_move hone with ⟨-, -, hne⟩ | ⟨-, m, -⟩
      · exact hne running
      · have := m.canBecome
        rw [hs, running] at this
        cases this

theorem CompInv.start (h : CompInv cond e W) (hnone : W.inst = none)
    (rows : ∀ r ∈ w.log, r.outcome ≠ .compensationFailed) (hs : w.row.status ≠ .compensated) :
    CompInv cond e { W with inst := some w } := by
  obtain ⟨hprocs, -⟩ := h.notYet fun w₁ hw₁ => by rw [hnone] at hw₁; cases hw₁
  constructor
  · rintro _ ⟨⟩ -
    exact .fresh rows (fun p => .inl (hprocs p)) hs
  · rintro -
    exact ⟨hprocs, by rintro _ ⟨⟩; exact rows⟩

/-! ## Whole runs -/

/-- The public `compensate` is called on an instance that has stopped. -/
def calledStopped (W : World) : Act → Bool
  | .compensate _ => W.inst.all fun w => !w.row.status.active
  | _ => true

theorem CompInv.resume (h : CompInv cond e W) (p : ℕ) (record : OutboxRecord) :
    CompInv cond e (W.resume e p env record) := by
  rcases W.resume_cases p record with hsame | ⟨w, w', hw, waiting, hres, hresumed⟩
  · rw [hsame]
    exact h
  · have m := (resumeOne_ok waiting hres).1
    rw [hresumed]
    refine (h.move hw m (by simp) fun hc => ?_).setIdle p Proc.drive_compensates
    have := m.canBecome
    rw [waiting, hc] at this
    cases this

/-- Every step keeps the invariant, if `compensate` is only called on an instance that has stopped. -/
theorem CompInv.step (h : CompInv cond e W) (a : Act) (hcalled : calledStopped W a = true)
    (hpure : ∀ p env, a = .txn p env → CondOnly cond env) : CompInv cond e (W.step e a) := by
  cases a with
  | start env envs record id =>
    simp only [World.step]
    split
    · rename_i w hnone hstart
      obtain ⟨rows, hs⟩ := start_uncompensated hstart
      exact h.start hnone rows hs
    · exact h
  | resume p env record => exact h.resume p record
  | run p => exact h.call p (.inl Proc.drive_compensates)
  | sweep p => exact h.call p (.inl rfl)
  | compensate p =>
    refine h.call p (.inr ⟨rfl, fun w hw => ?_⟩)
    simpa [calledStopped, hw] using hcalled
  | cancel env =>
    simp only [World.step]
    cases hw : W.inst with
    | none => rw [Option.map_none, ← hw]; exact h
    | some w =>
      rcases cancel_move e.spec env w with hsame | m
      · rw [Option.map_some, hsame, ← hw]; exact h
      · refine h.move hw m (by simp) ?_
        change (cancel env w).2.row.status = _ → _
        unfold cancel
        split
        · exact id
        · intro hc
          cases hc
  | txn p env =>
    have hp := hpure p env rfl
    simp only [World.step]
    cases hw : W.inst with
    | none => exact h
    | some w =>
      cases hactive : w.row.status.active with
      | true =>
        refine (h.notYet fun w₁ hw₁ => ?_).txn hw hactive p
        obtain rfl := Option.some.inj (hw.symm.trans hw₁)
        exact hactive
      | false =>
        obtain ⟨hstop, hclosing⟩ := (h.closing w hw hactive).txn hp hactive p
        constructor
        · rintro _ ⟨⟩ -
          exact hclosing
        · intro hstill
          have := hstill _ rfl
          rw [hstop] at this
          cases this
  | dbError p =>
    simp only [World.step]
    cases hx : W.procs p with
    | recording c message rest failures =>
      -- Nobody records before the instance stops.
      have hstop : ∃ w, W.inst = some w ∧ w.row.status.active = false := by
        by_contra hno
        simp only [not_exists, not_and, Bool.not_eq_false] at hno
        have := (h.notYet hno).procs p
        rw [hx] at this
        cases this
      obtain ⟨w, hw, hactive⟩ := hstop
      have hproc := (h.closing w hw hactive).procs p
      rw [hx] at hproc
      exact h.setProc p (fun _ _ => hproc.afterRecord) fun _ => ⟨w, hw, hactive⟩
    | _ => exact h.setIdle p rfl
  | crash p => exact h.setIdle p rfl

/-- What is settled in a compensated instance is undone. -/
theorem Closing.undone (h : Closing cond e.spec w procs) (hs : w.row.status = .compensated) :
    Undone cond e.spec w where
  compensated := by
    intro c hc hcond
    exact (h.done hs c hc).resolve_right (by rw [hcond]; nofun)
  failed := by
    intro c _ hrow
    obtain ⟨r, hr, hstep, ho⟩ := hasRow_iff.mp hrow
    obtain ⟨d, ⟨hd, hopen⟩, hlabel⟩ := h.failedRows r hr ho
    rw [← hstep, ← hlabel]
    exact (h.done hs d hd).resolve_right hopen

end

/-- In every run where `compensate` is only called on an instance that has stopped, an instance that
is compensated has undone what it promises. -/
theorem compensated_undone (e : Engine) (cond : CondFn) (as : List Act)
    (hpure : ∀ p env, Act.txn p env ∈ as → CondOnly cond env)
    (hcalled : Machine.Along (World.step e) (fun W a => calledStopped W a = true) World.init as)
    (w : Instance) (hw : (World.after e as).inst = some w) (hs : w.row.status = .compensated) :
    Undone cond e.spec w := by
  have hpure' : Machine.Along (World.step e)
      (fun _ a => ∀ p env, a = .txn p env → CondOnly cond env) World.init as :=
    Machine.along_of_forall_mem _ fun a ha p env hatxn => hpure p env (hatxn ▸ ha)
  have hinit : CompInv cond e World.init :=
    ⟨by simp [World.init], fun _ => ⟨fun _ => rfl, by simp [World.init]⟩⟩
  have hinv : CompInv cond e (World.after e as) :=
    Machine.invariant_along _ (fun W a h hC => h.step a hC.1 hC.2) hinit (hcalled.and _ hpure')
  exact (hinv.closing w hw (by rw [hs]; rfl)).undone hs

/-- A rejected order whose stock was released. -/
theorem compensated_undone_rejected :
    ∃ w, (World.after orders [.placeOrder, .run 1, .txn 1 .refusing, .txn 1 .calm, .txn 1 .calm,
        .txn 1 .calm, .txn 1 .calm]).inst = some w ∧
      w.row.status = .compensated ∧ Undone .silent orderSpec w := by
  have hstate : (World.after orders [.placeOrder, .run 1, .txn 1 .refusing, .txn 1 .calm,
      .txn 1 .calm, .txn 1 .calm, .txn 1 .calm]).inst.map (·.row.status) = some .compensated := by
    decide
  obtain ⟨w, hw, hs⟩ := Option.map_eq_some_iff.mp hstate
  refine ⟨w, hw, hs, compensated_undone orders .silent _ ?_ (by decide) w hw hs⟩
  intro p env hmem x scope
  simp only [List.mem_cons, Act.placeOrder, reduceCtorEq, Act.txn.injEq, false_or,
    List.not_mem_nil, or_false] at hmem
  rcases hmem with ⟨-, rfl⟩ | ⟨-, rfl⟩ | ⟨-, rfl⟩ | ⟨-, rfl⟩ | ⟨-, rfl⟩ <;> rfl

end Backbone.Workflow
