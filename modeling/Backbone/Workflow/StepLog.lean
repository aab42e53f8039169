import Backbone.Workflow.World

/-!
# The step log tells what was done

An action and the row that logs it are written in one transaction, so the committed executions of an
instance and the rows that stand for one correspond, in commit order. `LogInvariant` says so, together
with the numbering of the log and the one `compensated` row a compensation may have; `step_log` is the
law over whole runs: the log and the executions only ever grow, by commits alone.
-/

namespace Backbone.Workflow

/-- Whether a row stands for an execution: a compensation, or an action or transition that went
well. -/
def StepRow.executes (spec : WorkflowSpec) (r : StepRow) : Bool :=
  r.outcome == .compensated ||
    (r.outcome == .ok && (spec.step r.step).any (·.kind.performs))

/-- The name and the outcome a row stands for. -/
def StepRow.stamp (r : StepRow) : String × StepOutcome := (r.step, r.outcome)

/-- The name and the outcome an execution is logged under. -/
def Execution.stamp (x : Execution) : String × StepOutcome :=
  (x.step, if x.compensates then .compensated else .ok)

/-- The names with a `compensated` row. -/
def compensatedSteps (log : List StepRow) : List String :=
  (log.filter (·.outcome == .compensated)).map (·.step)

/-- What the step log of an instance says about its executions. -/
structure LogInvariant (spec : WorkflowSpec) (w : Instance) : Prop where
  /-- The numbers of the log are `1..n`, in commit order. -/
  seqs : w.log.map (·.seq) = List.range' 1 w.log.length
  /-- The rows that stand for an execution are the executions, in commit order. -/
  executed : (w.log.filter (StepRow.executes spec)).map StepRow.stamp =
    w.executions.map Execution.stamp
  /-- No compensation is logged twice. -/
  once : (compensatedSteps w.log).Nodup

section

variable {spec : WorkflowSpec} {r : Report} {w w' : Instance} {error : Option String}

theorem foldr_max_range' (n : ℕ) : (List.range' 1 n).foldr max 0 = n := by
  induction n with
  | zero => rfl
  | succ n ih =>
    rw [List.range'_1_concat, List.foldr_append, List.foldr_cons, List.foldr_nil]
    have hmax : ∀ (l : List ℕ) (b : ℕ), l.foldr max b = max (l.foldr max 0) b := by
      intro l b
      induction l with
      | nil => simp
      | cons a l ih => rw [List.foldr_cons, List.foldr_cons, ih, Nat.max_assoc]
    rw [hmax, ih]
    omega

/-- `MAX(seq) + 1` is the next number of a log numbered `1..n`. -/
theorem LogInvariant.nextSeq_eq (h : LogInvariant spec w) : nextSeq w.log = w.log.length + 1 := by
  rw [nextSeq, h.seqs, foldr_max_range']

theorem LogInvariant.seqs_append (h : LogInvariant spec w) (r : StepRow)
    (hr : r.seq = nextSeq w.log) :
    (w.log ++ [r]).map (·.seq) = List.range' 1 (w.log ++ [r]).length := by
  rw [List.map_append, h.seqs, List.length_append, List.length_singleton, List.range'_1_concat,
    List.map_singleton, hr, h.nextSeq_eq, Nat.add_comm 1]

theorem compensatedSteps_append_of_ne {log : List StepRow} {r : StepRow}
    (hr : r.outcome ≠ .compensated) : compensatedSteps (log ++ [r]) = compensatedSteps log := by
  simp [compensatedSteps, List.filter_append, hr]

/-- A row that stands for no execution. -/
theorem LogInvariant.silent (h : LogInvariant spec w) {step : String} {outcome : StepOutcome}
    (log : w'.log = w.log ++ [⟨nextSeq w.log, step, outcome, error⟩])
    (executions : w'.executions = w.executions) (hcomp : outcome ≠ .compensated)
    (hok : outcome = .ok → (spec.step step).any (·.kind.performs) = false) :
    LogInvariant spec w' where
  seqs := by rw [log]; exact h.seqs_append _ rfl
  executed := by
    have hexec : StepRow.executes spec ⟨nextSeq w.log, step, outcome, error⟩ = false := by
      by_cases ho : outcome = .ok
      · simp [StepRow.executes, ho, hok ho]
      · simp [StepRow.executes, ho, hcomp]
    rw [log, executions, ← h.executed, List.filter_append]
    simp [hexec]
  once := by
    rw [log, compensatedSteps_append_of_ne hcomp]
    exact h.once

/-- An execution together with the row that stands for it. -/
theorem LogInvariant.execute (h : LogInvariant spec w) {x : Execution}
    (hx : StepRow.executes spec ⟨nextSeq w.log, x.step, x.stamp.2, error⟩ = true)
    (hfresh : x.compensates = true → hasRow w.log x.step .compensated = false)
    (log : w'.log = w.log ++ [⟨nextSeq w.log, x.step, x.stamp.2, error⟩])
    (executions : w'.executions = w.executions ++ [x]) : LogInvariant spec w' where
  seqs := by rw [log]; exact h.seqs_append _ rfl
  executed := by
    rw [log, executions, List.filter_append, List.map_append, List.map_append, h.executed]
    simp only [List.filter_cons, hx, if_true, List.filter_nil, List.map_singleton]
    rfl
  once := by
    rw [log]
    by_cases hc : x.compensates = true
    · have hnot : x.step ∉ compensatedSteps w.log := by
        intro hmem
        obtain ⟨r, hr, hstep⟩ := List.mem_map.mp hmem
        simp only [List.mem_filter, beq_iff_eq] at hr
        have : hasRow w.log x.step .compensated = true := hasRow_iff.mpr ⟨r, hr.1, hstep, hr.2⟩
        rw [hfresh hc] at this
        cases this
      have happ : compensatedSteps (w.log ++ [⟨nextSeq w.log, x.step, x.stamp.2, error⟩]) =
          compensatedSteps w.log ++ [x.step] := by
        simp [compensatedSteps, List.filter_append, Execution.stamp, hc]
      rw [happ]
      exact List.nodup_append.mpr
        ⟨h.once, List.nodup_singleton _, by rintro a ha b hb rfl; simp_all⟩
    · rw [compensatedSteps_append_of_ne (by simp [Execution.stamp, hc])]
      exact h.once

/-- A move that writes neither the log nor an effect. -/
theorem LogInvariant.congr (h : LogInvariant spec w) (log : w'.log = w.log)
    (executions : w'.executions = w.executions) : LogInvariant spec w' := by
  refine ⟨?_, ?_, ?_⟩
  · rw [log]; exact h.seqs
  · rw [log, executions]; exact h.executed
  · rw [log]; exact h.once

theorem On.any_performs {s : StepSpec} (on : On spec w s) :
    (spec.step s.name).any (·.kind.performs) = s.kind.performs := by
  rw [on.found]; rfl

/-- Every move keeps the log telling what was done. -/
theorem LogInvariant.move (h : LogInvariant spec w) (m : Move spec w r w') : LogInvariant spec w' := by
  cases m with
  | skip context now running on edge found => exact h.silent rfl rfl nofun nofun
  | @perform s next effect context now running on performs edge found =>
    refine h.execute (x := ⟨s.name, false, effect⟩) ?_ nofun rfl rfl
    simp [StepRow.executes, Execution.stamp, on.any_performs, performs]
  | branch context now running on silent edge found =>
    exact h.silent rfl rfl nofun fun _ => on.any_performs.trans silent
  | wait waitKey due now running on kind keyed awaits => exact h.silent rfl rfl nofun nofun
  | terminal emitted reason error context now running on ends => exact h.silent rfl rfl nofun nofun
  | route message context now running policy edge found => exact h.silent rfl rfl nofun nofun
  | retry message attempts due now running => exact h.silent rfl rfl nofun nofun
  | giveUp message attempts now running ends => exact h.silent rfl rfl nofun nofun
  | resume context now waiting on silent edge found => exact h.silent rfl rfl nofun nofun
  | timeOut context now waiting on silent edge found => exact h.silent rfl rfl nofun nofun
  | expire step reason now waiting => exact h.silent rfl rfl nofun nofun
  | take now running => exact h.congr rfl rfl
  | touch now compensating => exact h.congr rfl rfl
  | compensate c effect status fresh =>
    exact h.execute (x := ⟨c.label, true, effect⟩) rfl (fun _ => fresh) rfl rfl
  | compensationFailed c message => exact h.silent rfl rfl nofun nofun
  | close error now was ends => exact h.congr rfl rfl
  | cancel step now live => exact h.silent rfl rfl nofun nofun

theorem Fresh.logInvariant (h : Fresh spec w) : LogInvariant spec w := by
  refine ⟨?_, ?_, ?_⟩
  · rw [h.log]; rfl
  · rw [h.log, h.executions]; rfl
  · rw [h.log]; exact List.nodup_nil

/-- The log and the executions of `w'` go on from those of `w`. -/
structure Extends (w w' : Instance) : Prop where
  log : w.log <+: w'.log
  executions : w.executions <+: w'.executions

theorem Extends.refl (w : Instance) : Extends w w := ⟨List.prefix_rfl, List.prefix_rfl⟩

theorem Extends.trans {w₁ w₂ w₃ : Instance} (h₁ : Extends w₁ w₂) (h₂ : Extends w₂ w₃) :
    Extends w₁ w₃ :=
  ⟨h₁.log.trans h₂.log, h₁.executions.trans h₂.executions⟩

/-- No move changes a row or takes an effect back. -/
theorem Move.extends (m : Move spec w r w') : Extends w w' := by
  cases m with
  | perform => exact ⟨List.prefix_append _ _, List.prefix_append _ _⟩
  | compensate => exact ⟨List.prefix_append _ _, List.prefix_append _ _⟩
  | take => exact ⟨List.prefix_rfl, List.prefix_rfl⟩
  | touch => exact ⟨List.prefix_rfl, List.prefix_rfl⟩
  | close => exact ⟨List.prefix_rfl, List.prefix_rfl⟩
  | _ => exact ⟨List.prefix_append _ _, List.prefix_rfl⟩

end

/-! ## Rolled back -/

/-- The body of the process's next transaction fails on `w`. -/
def Proc.Fails (e : Engine) (env : Env) (w : Instance) : Proc → Prop
  | .driving _ => ∃ f, runOne e env w = .error f
  | .failed _ failure => ∃ f, afterFailure e env failure w = .error f
  | .runaway => ∃ f, afterFailure e env (runawayFailure e) w = .error f
  | .sweeping => ∃ f, claimDue e env w = .error f
  | .compensating (c :: _) _ => ∃ f, compensateOne e env c w = .error f
  | _ => False

/-- The step's transaction rolls back: its body fails, the database refuses it, or its process is
gone. -/
def RolledBack (e : Engine) (W : World) : Act → Prop
  | .start env envs record id => ∃ f, start e env envs record id = .error f
  | .resume _ env record => ∃ w f, W.inst = some w ∧ resumeOne e env record w = .error f
  | .txn p env => ∃ w, W.inst = some w ∧ (W.procs p).Fails e env w
  | .dbError _ => True
  | .crash _ => True
  | _ => False

theorem Proc.txn_of_fails {e : Engine} {env : Env} {w : Instance} {x : Proc}
    (h : x.Fails e env w) : (x.txn e env w).2 = w := by
  cases x with
  | idle => cases h
  | driving n =>
    obtain ⟨f, hf⟩ := h
    simp [Proc.txn, hf]
  | failed n failure =>
    obtain ⟨f, hf⟩ := h
    simp [Proc.txn, hf]
  | runaway =>
    obtain ⟨f, hf⟩ := h
    simp [Proc.txn, hf]
  | sweeping =>
    obtain ⟨f, hf⟩ := h
    simp [Proc.txn, hf]
  | compensating rest failures =>
    cases rest with
    | nil => cases h
    | cons c rest =>
      obtain ⟨f, hf⟩ := h
      simp [Proc.txn, hf]
  | recording c message rest failures => cases h

/-- A transaction that rolls back leaves no row and no effect. -/
theorem World.step_of_rolledBack {e : Engine} {W : World} {a : Act} (h : RolledBack e W a) :
    (W.step e a).inst = W.inst := by
  cases a with
  | start env envs record id =>
    obtain ⟨f, hf⟩ := h
    simp [World.step, hf]
  | resume p env record =>
    obtain ⟨w, f, hw, hf⟩ := h
    change (W.resume e p env record).inst = W.inst
    rcases W.resume_cases p record with hsame | ⟨w', w'', hw', -, hres, -⟩
    · rw [hsame]
    · obtain rfl : w = w' := Option.some.inj (hw.symm.trans hw')
      rw [hf] at hres
      cases hres
  | txn p env =>
    obtain ⟨w, hw, hf⟩ := h
    simp [World.step, hw, Proc.txn_of_fails hf]
  | dbError p => rfl
  | crash p => rfl
  | run p => cases h
  | sweep p => cases h
  | compensate p => cases h
  | cancel env => cases h

/-- In every run, at every state reached by `as` and every later one reached by `as ++ bs`: the log
tells what was done, its rows and the effects are those of before and more, and a transaction that
rolls back adds to neither. -/
theorem step_log (e : Engine) (as bs : List Act) :
    (∀ w, (World.after e as).inst = some w → LogInvariant e.spec w ∧
      ∃ w', (World.after e (as ++ bs)).inst = some w' ∧ Extends w w') ∧
    ∀ a, RolledBack e (World.after e as) a →
      (World.after e (as ++ [a])).inst = (World.after e as).inst := by
  refine ⟨fun w hw => ⟨?_, ?_⟩, fun a ha => ?_⟩
  · refine World.inst_invariant (I := LogInvariant e.spec) ?_ (fun hI m => hI.move m) as w hw
    exact start_invariant Fresh.logInvariant (fun _ hI m => hI.move m)
      fun _ _ _ _ _ _ hI => hI.silent rfl rfl nofun nofun
  · exact World.inst_rel Extends.refl Extends.trans Move.extends as bs hw
  · rw [World.after, World.after, Machine.run_append]
    exact World.step_of_rolledBack ha

/-- The stock reserved for an order that now waits for its payment. -/
theorem step_log_reserved :
    ∃ w, (World.after orders [.placeOrder, .run 0, .txn 0 .calm, .txn 0 .calm]).inst = some w ∧
      w.log.map StepRow.stamp = [("reserve", .ok), ("payment", .waiting)] ∧
      LogInvariant orderSpec w := by
  have h : (World.after orders [.placeOrder, .run 0, .txn 0 .calm, .txn 0 .calm]).inst.map
      (·.log.map StepRow.stamp) = some [("reserve", .ok), ("payment", .waiting)] := by decide
  obtain ⟨w, hw, hlog⟩ := Option.map_eq_some_iff.mp h
  exact ⟨w, hw, hlog, ((step_log orders _ []).1 w hw).1⟩

end Backbone.Workflow
