import Backbone.Workflow.RowInvariant

/-!
# Drivers that overlap

A step that fails is handled in a second transaction, `after_failure`, which reads the status again
but not the step. Two drivers of one instance may therefore disagree: while one holds the failure of a
step, the other may have moved the instance on. `two_drivers` is such a run. `in_order` is the law for
the runs where this does not happen: every change of the current step follows an edge of the spec, and
a failure only changes an instance that is still on the step that failed.
-/

namespace Backbone.Workflow

variable {w : Instance} {f : StepFailure}

/-! ## A failure names the step that failed -/

section Failures

variable {e : Engine} {env : Env} {step : String} {scope : Scope} {s : StepSpec} (site : Site)
  (what : String) {α : Type} {params : Value} {seq : ℕ}

/-- Every failure of `x` is a failure of `step`. -/
abbrev FailsAs (step : String) {α : Type} (x : Except StepFailure α) : Prop :=
  FailsOnly (fun f : StepFailure => f.step = step) x

theorem failsAs_failBusiness (message : String) :
    FailsAs step (failBusiness step message : Except StepFailure α) :=
  .error rfl

theorem failsAs_evalAt (x : Expr) : FailsAs step (env.evalAt site step what x scope) := by
  unfold Env.evalAt
  split
  · exact .ok _
  · exact failsAs_failBusiness _

theorem failsAs_renderAt (t : Tpl) : FailsAs step (env.renderAt site step what t scope) := by
  unfold Env.renderAt
  split
  · exact .ok _
  · exact failsAs_failBusiness _

theorem failsAs_durationAt (d : Dur) : FailsAs step (env.durationAt step what d scope) := by
  unfold Env.durationAt
  split
  · exact .ok _
  · exact failsAs_failBusiness _

theorem failsAs_holdsIfAny (cond : Option Expr) :
    FailsAs step (env.holdsIfAny site step what cond scope) := by
  unfold Env.holdsIfAny
  split
  · unfold Env.holdsAt
    split
    · exact .ok _
    · exact failsAs_failBusiness _
  · exact .pure _

theorem failsAs_optional {β : Type} {x : Option α} {f : α → Except StepFailure β}
    (h : ∀ a, FailsAs step (f a)) : FailsAs step (optional x f) := by
  unfold optional
  split
  · exact .bind (h _) fun _ => .pure _
  · exact .pure _

theorem failsAs_stageAt (s : Staged) : FailsAs step (stageAt env step what s) := by
  unfold stageAt
  split
  · exact .ok _
  · exact .error rfl

theorem failsAs_applyOutcome {spec : WorkflowSpec} {context : Value} {outcome : Outcome}
    {result : Option Value} :
    FailsAs step (applyOutcome spec env step context outcome scope result) := by
  unfold applyOutcome
  refine .bind (.mapM _ fun kv => .bind (failsAs_renderAt _ _ _) fun _ => .pure _) fun sets => ?_
  cases outcome.next with
  | none => exact failsAs_failBusiness _
  | some next => exact .ite (failsAs_failBusiness _) (.pure _)

theorem failsAs_renderParams {params : List (String × Tpl)} :
    FailsAs step (renderParams env step params scope) := by
  unfold renderParams
  exact .bind (.mapM _ fun kv => .bind (failsAs_renderAt _ _ _) fun _ => .pure _) fun _ => .pure _

theorem failsAs_recordIdOf {id : Option Tpl} :
    FailsAs step (recordIdOf e env step id params scope) := by
  unfold recordIdOf
  exact .bind (failsAs_optional fun t => failsAs_renderAt _ _ _) fun _ => .pure _

theorem failsAs_callDef {call : Call} : FailsAs s.name (callDef env s call) := by
  unfold callDef
  cases s.callTimeout with
  | none =>
    cases env.perform call with
    | ok v => exact .ok v
    | error err => exact .error rfl
  | some secs =>
    refine FailsOnly.ite (FailsOnly.error rfl) ?_
    cases env.perform call with
    | ok v => exact .ok v
    | error err => exact .error rfl

theorem failsAs_performAction {action : String} {entity recordId verb : Option String}
    {row : InstanceRow} :
    FailsAs s.name (performAction e env s action entity recordId verb params row) := by
  unfold performAction
  split
  · exact .ok _
  · split
    · exact failsAs_failBusiness _
    · exact .bind (failsAs_stageAt _ _) fun _ => .pure _
  all_goals first
    | exact .bind (failsAs_stageAt _ _) fun _ => .pure _
    | exact .bind failsAs_callDef fun _ => .pure _

theorem failsAs_takenBranch {branches : List (Branch × ℕ)} :
    FailsAs step (takenBranch env step scope branches) := by
  induction branches with
  | nil => exact .pure _
  | cons b rest ih => exact .bind (failsAs_holdsIfAny _ _ _) fun _ => .ite (.pure _) ih

theorem failsAs_skipStep : FailsAs step (skipStep e env w seq s step scope) := by
  unfold skipStep skipNext
  refine .bind ?_ fun _ => .bind failsAs_applyOutcome fun _ => .pure _
  split
  · exact .pure _
  · exact .pure _
  · exact failsAs_failBusiness _

theorem failsAs_performStep : FailsAs s.name (performStep e env w seq s s.name scope) := by
  unfold performStep
  split
  · exact .bind failsAs_renderParams fun _ => .bind failsAs_recordIdOf fun _ =>
      .bind failsAs_performAction fun _ => .bind failsAs_applyOutcome fun _ => .pure _
  · exact .bind failsAs_renderParams fun _ => .bind (failsAs_renderAt _ _ _) fun _ =>
      .ite (failsAs_failBusiness _)
        (.bind failsAs_callDef fun _ => .bind failsAs_applyOutcome fun _ => .pure _)
  · refine .bind failsAs_takenBranch fun taken => ?_
    cases taken with
    | none => exact failsAs_failBusiness _
    | some b => exact .bind failsAs_applyOutcome fun _ => .pure _
  · refine .ite (failsAs_failBusiness _) ?_
    refine .bind (failsAs_optional fun _ => .bind (.mapM _ fun k => failsAs_evalAt _ _ _) fun _ =>
      .pure _) fun key => ?_
    exact .bind (failsAs_optional fun _ => .bind (failsAs_durationAt _ _) fun _ => .pure _) fun due =>
      .ite (failsAs_failBusiness _) (.pure _)
  · refine .bind (failsAs_optional fun t => failsAs_renderAt _ _ _) fun value => ?_
    refine .bind (failsAs_optional fun em => .bind (failsAs_renderAt _ _ _) fun _ =>
      .bind (failsAs_stageAt _ _) fun _ => .pure _) fun emitted => ?_
    exact .bind (failsAs_optional fun t => .bind (failsAs_renderAt _ _ _) fun _ => .pure _)
      fun reason => .pure _

/-- A `run_one` that rolls back ran the current step of a running instance, and names it. -/
theorem runOne_error (h : runOne e env w = .error f) :
    w.row.status = .running ∧ (w.row.currentStep = none ∨ w.row.currentStep = some f.step) := by
  unfold runOne at h
  split at h
  · cases h
  · rename_i hstatus
    refine ⟨by simpa using hstatus, ?_⟩
    cases hstep : w.row.currentStep with
    | none => exact .inl rfl
    | some name =>
      simp only [hstep] at h
      cases hfound : e.spec.step name with
      | none =>
        simp only [hfound] at h
        rw [failsAs_failBusiness _ f h]
        exact .inr rfl
      | some s =>
        obtain rfl := WorkflowSpec.name_of_step hfound
        simp only [hfound] at h
        have hnames : f.step = s.name := by
          refine FailsOnly.bind (P := fun f : StepFailure => f.step = s.name)
            (failsAs_holdsIfAny _ _ _) (fun holds => ?_) f h
          exact .ite failsAs_performStep failsAs_skipStep
        exact .inr (by rw [hnames])

end Failures

/-! ## Steps in order -/

/-- From `w` to `w'` the current step stayed, or followed an edge of the spec. -/
def FollowsEdge (spec : WorkflowSpec) (w w' : Instance) : Prop :=
  w'.row.currentStep = w.row.currentStep ∨
    ∃ a b, w.row.currentStep = some a ∧ w'.row.currentStep = some b ∧ spec.Edge a b

/-- One step of a run moves the instance along an edge, and handles a reported failure only of the
step the instance is on. -/
structure InOrder (e : Engine) (W : World) (a : Act) : Prop where
  edge : ∀ w w', W.inst = some w → (W.step e a).inst = some w' → FollowsEdge e.spec w w'
  failure : ∀ p env n f w, a = .txn p env → W.procs p = .failed n f → W.inst = some w →
    (W.step e a).inst ≠ some w → w.row.currentStep = some f.step

/-- A reservation that one driver sees refused and the other sees granted: the refusal is handled when
the order already waits to be paid for, and rejects it from there. -/
def overlap : List Act :=
  [.placeOrder, .run 0, .run 1, .txn 0 .refusing, .txn 1 .calm]

/-- The order is on its payment step, and the first driver's failure of the reservation moves it to
`rejected`, which no edge of `payment` leads to. -/
theorem two_drivers : ¬ Machine.Along (World.step orders) (InOrder orders) World.init
    (overlap ++ [.txn 0 .calm]) := by
  intro h
  have hlast := (Machine.along_append (World.step orders)).mp h
  obtain ⟨hedge, -⟩ := hlast.2.1
  have hbefore : (Machine.run (World.step orders) World.init overlap).inst.map
      (·.row.currentStep) = some (some "payment") := by decide
  have hafter : ((Machine.run (World.step orders) World.init overlap).step orders
      (.txn 0 .calm)).inst.map (·.row.currentStep) = some (some "rejected") := by decide
  obtain ⟨w, hw, hstep⟩ := Option.map_eq_some_iff.mp hbefore
  obtain ⟨w', hw', hstep'⟩ := Option.map_eq_some_iff.mp hafter
  rcases hedge w w' hw hw' with hsame | ⟨a, b, ha, hb, s, hs, hmem⟩
  · rw [hstep, hstep'] at hsame
    simp at hsame
  · obtain rfl : "payment" = a := Option.some.inj (hstep.symm.trans ha)
    obtain rfl : "rejected" = b := Option.some.inj (hstep'.symm.trans hb)
    have hpayment : (orders.spec.step "payment").map (·.edges) = some ["ship"] := by decide
    rw [hs] at hpayment
    simp only [Option.map_some, Option.some.injEq] at hpayment
    rw [hpayment] at hmem
    simp at hmem

/-! ## When no driver is overtaken -/

/-- The step each driver's last rolled-back `run_one` read, kept beside the run. -/
abbrev Seen := ℕ → Option String

/-- A `run_one` that rolls back leaves the step it read. -/
def noteSeen (seen : Seen) (W : World) (a : Act) (W' : World) : Seen :=
  match a with
  | .txn p _ =>
    match W.procs p, W'.procs p with
    | .driving _, .failed _ _ => Function.update seen p (W.inst.bind (·.row.currentStep))
    | _, _ => seen
  | _ => seen

/-- No other transaction has moved a running instance off the step since the driver's `run_one` rolled
back, and a driver out of rounds reports its failure under a name no step has. -/
def undisturbed (e : Engine) (q : World × Seen) : Act → Bool
  | .txn p _ =>
    match q.1.inst, q.1.procs p with
    | some w, .failed _ _ => w.row.status != .running || w.row.currentStep == q.2 p
    | some w, .runaway =>
      w.row.status != .running || (e.spec.step (runawayFailure e).step).isNone
    | _, _ => true
  | _ => true

section

variable {e : Engine} {n p : ℕ} {W : World}
  {r : Report} {w' : Instance} {x : Proc} {a : Act} {q : World × Seen}

/-- Only a running instance has a failure handled. -/
theorem Move.running_of_reported {f : String} (m : Move e.spec w r w')
    (hr : r = .failure f) : w.row.status = .running := by
  cases m with
  | route message context now running policy edge found => exact running
  | retry message attempts due now running => exact running
  | giveUp message attempts now running ends => exact running
  | _ => cases hr

/-- A move that reports no failure, or a failure of the current step, follows an edge. -/
theorem Move.followsEdge (m : Move e.spec w r w')
    (hr : ∀ f, r = .failure f → w.row.currentStep = some f ∨ e.spec.step f = none) :
    FollowsEdge e.spec w w' := by
  have along : ∀ {s : StepSpec} {next : String}, On e.spec w s → next ∈ s.kind.successors →
      w'.row.currentStep = some next → FollowsEdge e.spec w w' := by
    intro s next on hmem hnext
    exact .inr ⟨s.name, next, on.current, hnext, s, on.found, List.mem_append_left _ hmem⟩
  cases m with
  | skip context now running on edge found => exact along on edge rfl
  | perform effect context now running on performs edge found => exact along on edge rfl
  | branch context now running on silent edge found => exact along on edge rfl
  | terminal emitted reason error context now running on ends => exact .inl on.current.symm
  | resume context now waiting on silent edge found => exact along on edge rfl
  | timeOut context now waiting on silent edge found => exact along on edge rfl
  | @route f s next message context now running policy edge found =>
    rcases hr f rfl with hon | hnone
    · exact .inr ⟨f, next, hon, rfl, s, policy, edge⟩
    · rw [hnone] at policy
      cases policy
  | _ => exact .inl rfl

theorem Proc.drive_ne_failed (n : ℕ) (f : StepFailure) : Proc.drive e ≠ .failed n f := by
  unfold Proc.drive
  split <;> nofun

/-- A process comes to hold a failure only by a `run_one` that rolls back. -/
theorem Proc.txn_failed {env : Env} (h : (x.txn e env w).1 = .failed n f) :
    x = .driving n ∧ runOne e env w = .error f := by
  have hstep : ∀ n' last, Proc.afterStep e n' last ≠ .failed n f := by
    intro n' last
    cases last with
    | advanced => simp only [Proc.afterStep]; split <;> nofun
    | _ => nofun
  cases x with
  | driving n' =>
    simp only [Proc.txn] at h
    split at h
    · exact absurd h (hstep _ _)
    · rename_i f' hf
      simp only [Proc.failed.injEq] at h
      obtain ⟨rfl, rfl⟩ := h
      exact ⟨rfl, hf⟩
  | failed n' f' =>
    simp only [Proc.txn] at h
    split at h
    · exact absurd h (hstep _ _)
    · cases h
  | runaway =>
    simp only [Proc.txn] at h
    split at h <;> cases h
  | sweeping =>
    simp only [Proc.txn] at h
    split at h
    · rename_i claim _ _
      cases claim <;> first | exact absurd h (Proc.drive_ne_failed _ _) | cases h
    · cases h
  | compensating rest failures =>
    cases rest with
    | nil => cases h
    | cons c rest =>
      simp only [Proc.txn] at h
      split at h <;> cases h
  | idle => cases h
  | recording c message rest failures => cases h

theorem World.setProc_failed {q : ℕ}
    (h : (W.setProc p x).procs q = .failed n f) (hx : x ≠ .failed n f) :
    W.procs q = .failed n f := by
  by_cases hq : q = p
  · subst hq
    simp only [World.setProc, Function.update_self] at h
    exact absurd h hx
  · simpa [World.setProc, hq] using h

theorem World.call_failed {q : ℕ}
    (h : (W.call p x).procs q = .failed n f) (hx : x ≠ .failed n f) : W.procs q = .failed n f := by
  unfold World.call at h
  split at h
  · exact World.setProc_failed h hx
  · exact h

/-- A pending failure was pending before the step, or the step is the `run_one` that reports it. -/
theorem World.step_failed (h : (W.step e a).procs p = .failed n f) :
    W.procs p = .failed n f ∨ ∃ env w, a = .txn p env ∧ W.inst = some w ∧
      W.procs p = .driving n ∧ runOne e env w = .error f := by
  cases a with
  | start env envs record id =>
    simp only [World.step] at h
    split at h <;> exact .inl h
  | resume p' env record =>
    change (W.resume e p' env record).procs p = _ at h
    rcases W.resume_cases p' record with hsame | ⟨w, w', -, -, -, hresumed⟩
    · rw [hsame] at h
      exact .inl h
    · rw [hresumed] at h
      exact .inl (World.setProc_failed h (Proc.drive_ne_failed _ _))
  | run p' => exact .inl (World.call_failed h (Proc.drive_ne_failed _ _))
  | sweep p' => exact .inl (World.call_failed h (by simp))
  | compensate p' => exact .inl (World.call_failed h (by simp [Proc.compensate]))
  | cancel env => exact .inl h
  | txn p' env =>
    simp only [World.step] at h
    cases hw : W.inst with
    | none => simp only [hw] at h; exact .inl h
    | some w =>
      simp only [hw] at h
      by_cases hp : p = p'
      · subst hp
        simp only [World.setProc, Function.update_self] at h
        obtain ⟨hdriving, herror⟩ := Proc.txn_failed h
        exact .inr ⟨env, w, rfl, rfl, hdriving, herror⟩
      · simp only [World.setProc, Function.update_of_ne hp] at h
        exact .inl h
  | dbError p' =>
    refine .inl (World.setProc_failed h ?_)
    cases W.procs p' <;> simp [Proc.onDbError, Proc.afterRecord]
  | crash p' => exact .inl (World.setProc_failed h (by simp))

/-- A driver that holds a failure keeps the step it read. -/
theorem noteSeen_of_failed {seen : Seen} {W' : World}
    (h : W.procs p = .failed n f) : noteSeen seen W a W' p = seen p := by
  cases a with
  | txn p' env =>
    by_cases hp : p = p'
    · subst hp
      simp [noteSeen, h]
    · simp only [noteSeen]
      cases W.procs p' with
      | driving n' => cases W'.procs p' <;> simp [Function.update_of_ne hp]
      | _ => rfl
  | _ => rfl

/-- Each pending failure is of the step its driver read. -/
structure SeenFailures (e : Engine) (q : World × Seen) : Prop where
  rows : ∀ w, q.1.inst = some w → RowInvariant e.spec w.row
  seen : ∀ p n f, q.1.procs p = .failed n f → q.2 p = some f.step

theorem SeenFailures.step (h : SeenFailures e q) (a : Act) :
    SeenFailures e (Machine.withHistory (World.step e) noteSeen q a) where
  rows := fun w hw => (q.1.step_commit a).rowInvariant h.rows w hw
  seen := by
    intro p n f hf
    rcases World.step_failed hf with hbefore | ⟨env, w, rfl, hw, hdriving, herror⟩
    · rw [← h.seen p n f hbefore]
      exact noteSeen_of_failed hbefore
    · obtain ⟨running, hstep⟩ := runOne_error herror
      obtain ⟨s, hs, -⟩ := (h.rows w hw).running running
      have hcurrent : w.row.currentStep = some f.step := hstep.resolve_left (by simp [hs])
      simp only [Machine.withHistory] at hf ⊢
      simp [noteSeen, hdriving, hf, hw, hcurrent]

/-- From a state where each pending failure is of the step its driver read, an undisturbed step is in
order. -/
theorem InOrder.of_undisturbed (h : SeenFailures e q)
    (hu : undisturbed e q a = true) : InOrder e q.1 a := by
  -- A failure that is handled while the instance runs is of the step it is on.
  have hon : ∀ p env n f w, a = .txn p env → q.1.inst = some w → w.row.status = .running →
      q.1.procs p = .failed n f → w.row.currentStep = some f.step := by
    intro p env n f w ha hw running hp
    subst ha
    simp only [undisturbed, hw, hp, running, bne_self_eq_false, Bool.false_or, beq_iff_eq] at hu
    rw [hu, h.seen p n f hp]
  refine ⟨fun w w' hw hw' => ?_, fun p env n f w ha hp hw hchange => ?_⟩
  · have hc := q.1.step_commit (e := e) a
    rw [hw, hw'] at hc
    cases hc with
    | same => exact .inl rfl
    | move m =>
      refine m.followsEdge fun f hf => ?_
      have running : w.row.status = .running := m.running_of_reported hf
      cases a with
      | txn p env =>
        cases hp : q.1.procs p with
        | failed n failure =>
          simp only [Act.reported, hp, Proc.reported, Report.failure.injEq] at hf
          exact .inl (hf ▸ hon p env n failure w rfl hw running hp)
        | runaway =>
          simp only [Act.reported, hp, Proc.reported, Report.failure.injEq] at hf
          simp only [undisturbed, hw, hp, running, bne_self_eq_false, Bool.false_or,
            Option.isNone_iff_eq_none] at hu
          exact .inr (hf ▸ hu)
        | _ => simp [Act.reported, hp, Proc.reported] at hf
      | _ => cases hf
  · by_cases running : w.row.status = .running
    · exact hon p env n f w ha hw running hp
    · subst ha
      refine absurd ?_ hchange
      simp [World.step, hw, hp, Proc.txn, afterFailure, running, pure, Except.pure]

/-- In every run where no driver is overtaken between its rolled-back `run_one` and its
`after_failure`, every step is in order. -/
theorem in_order (e : Engine) (as : List Act)
    (h : Machine.Along (Machine.withHistory (World.step e) noteSeen)
      (fun q a => undisturbed e q a = true) (World.init, fun _ => none) as) :
    Machine.Along (World.step e) (InOrder e) World.init as := by
  have hinit : SeenFailures e (World.init, fun _ => none) := ⟨by simp [World.init], nofun⟩
  have halong := Machine.along_of_invariant (Machine.withHistory (World.step e) noteSeen)
    (I := SeenFailures e) (D := fun q a => InOrder e q.1 a)
    (fun q a hq _ => hq.step a) (fun q a hq hu => .of_undisturbed hq hu) hinit h
  exact (Machine.along_withHistory_iff _ noteSeen _ _).mp halong

/-- A driver whose reservation is refused rejects the order itself; the other one comes too late. -/
theorem in_order_refused :
    Machine.Along (World.step orders) (InOrder orders) World.init
      [.placeOrder, .run 0, .run 1, .txn 0 .refusing, .txn 0 .calm, .txn 1 .calm] := by
  exact in_order orders _ (by decide)

end

end Backbone.Workflow
