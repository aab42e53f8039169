import Backbone.Workflow.World

/-!
# The columns of an instance fit together

A dozen `UPDATE`s write the row of an instance, each a different subset of its columns. The resume
query, the due predicate and the sweep read the wait columns together with the status and the
current step: `RowInvariant` says what they rely on, and `row_invariant` that every reachable row has
it.
-/

namespace Backbone.Workflow

/-- What an instance's wait columns say: everything about its wait while it waits, and nothing once
it does not. -/
structure WaitColumns (spec : WorkflowSpec) (row : InstanceRow) : Prop where
  /-- A waiting instance sits on a wait step, waits for that step's event under a key that is set
  exactly when the event is, and waits for something. -/
  waiting : row.status = .waiting → ∃ s event key timeout onEvent onTimeout,
    row.currentStep = some s.name ∧ spec.step s.name = some s ∧
    s.kind = .wait event key timeout onEvent onTimeout ∧ row.waitEvent = event ∧
    row.waitKey.isSome = event.isSome ∧ (row.waitEvent.isSome ∨ row.waitDueAt.isSome)
  waitEvent : row.status ≠ .waiting → row.waitEvent = none
  waitKey : row.status ≠ .waiting → row.waitKey = none
  /-- Only a wait's timeout and a retry's backoff set `wait_due_at`. -/
  waitDueAt : row.status ≠ .waiting → row.status ≠ .running → row.waitDueAt = none

/-- The representation invariant of `bb_workflow_instances`. -/
structure RowInvariant (spec : WorkflowSpec) (row : InstanceRow) : Prop
    extends WaitColumns spec row where
  running : row.status = .running → ∃ s, row.currentStep = some s ∧ (spec.step s).isSome

variable {spec : WorkflowSpec} {r : Report} {w w' : Instance} {row : InstanceRow} {e : Engine}

/-- A row that waits for nothing has its wait columns in order, whatever its status. -/
theorem WaitColumns.of_cleared (status : row.status ≠ .waiting)
    (event : row.waitEvent = none) (key : row.waitKey = none)
    (due : row.status ≠ .running → row.waitDueAt = none) : WaitColumns spec row :=
  ⟨fun h => absurd h status, fun _ => event, fun _ => key, fun _ => due⟩

/-- The wait columns only read the status, the current step and themselves. -/
theorem WaitColumns.congr {row' : InstanceRow} (h : WaitColumns spec row)
    (status : row'.status = row.status) (current : row'.currentStep = row.currentStep)
    (event : row'.waitEvent = row.waitEvent) (key : row'.waitKey = row.waitKey)
    (due : row'.waitDueAt = row.waitDueAt) : WaitColumns spec row' := by
  refine ⟨fun hw => ?_, ?_, ?_, ?_⟩
  · rw [current, event, key, due]
    exact h.waiting (status ▸ hw)
  · rw [status, event]; exact h.waitEvent
  · rw [status, key]; exact h.waitKey
  · rw [status, due]; exact h.waitDueAt

theorem terminalStatus_ne (t : Terminal) :
    terminalStatus t ≠ .waiting ∧ terminalStatus t ≠ .running := by
  cases t <;> exact ⟨nofun, nofun⟩

/-- Every move keeps the wait columns in order. -/
theorem WaitColumns.move (h : WaitColumns spec w.row) (m : Move spec w r w') :
    WaitColumns spec w'.row := by
  cases m with
  | skip context now running on edge found =>
    exact .of_cleared (by simp [Instance.advance, Instance.logStep, running]) rfl rfl fun _ => rfl
  | perform effect context now running on performs edge found =>
    exact .of_cleared (by simp [Instance.advance, Instance.logStep, Instance.execute, running]) rfl rfl
      fun _ => rfl
  | branch context now running on silent edge found =>
    exact .of_cleared (by simp [Instance.advance, Instance.logStep, running]) rfl rfl fun _ => rfl
  | @wait s event key timeout onEvent onTimeout waitKey due now running on kind keyed awaits =>
    exact ⟨fun _ => ⟨s, event, key, timeout, onEvent, onTimeout, on.current, on.found, kind, rfl,
      keyed, awaits⟩, fun hne => absurd rfl hne, fun hne => absurd rfl hne,
      fun hne => absurd rfl hne⟩
  | terminal emitted reason error context now running on ends =>
    refine .of_cleared ?_ rfl rfl fun _ => rfl
    rcases ends with rfl | ⟨t, rfl⟩
    · nofun
    · exact (terminalStatus_ne t).1
  | route message context now running policy edge found =>
    exact .of_cleared (by simp [Instance.advance, Instance.logStep, running]) rfl rfl fun _ => rfl
  | retry message attempts due now running =>
    -- The backoff's `wait_due_at` is allowed: the instance still runs.
    have hne : w.row.status ≠ .waiting := by simp [running]
    exact .of_cleared hne (h.waitEvent hne) (h.waitKey hne) fun hrun => absurd running hrun
  | giveUp message attempts now running ends =>
    refine .of_cleared ?_ rfl rfl fun _ => rfl
    rcases ends with rfl | rfl <;> nofun
  | resume context now waiting on silent edge found => exact .of_cleared nofun rfl rfl fun _ => rfl
  | timeOut context now waiting on silent edge found => exact .of_cleared nofun rfl rfl fun _ => rfl
  | expire step reason now waiting => exact .of_cleared nofun rfl rfl fun _ => rfl
  | take now running =>
    have hne : w.row.status ≠ .waiting := by simp [running]
    exact .of_cleared hne (h.waitEvent hne) (h.waitKey hne) fun _ => rfl
  | touch now compensating => exact h.congr rfl rfl rfl rfl rfl
  | compensate c effect status fresh => exact h.congr rfl rfl rfl rfl rfl
  | compensationFailed c message => exact h.congr rfl rfl rfl rfl rfl
  | close error now was ends =>
    have hne : w.row.status ≠ .waiting ∧ w.row.status ≠ .running := by
      rcases was with was | was <;> simp [was]
    refine .of_cleared ?_ (h.waitEvent hne.1) (h.waitKey hne.1) fun _ => h.waitDueAt hne.1 hne.2
    rcases ends with rfl | rfl <;> nofun
  | cancel step now live => exact .of_cleared nofun rfl rfl fun _ => rfl

/-- After every move, a running instance is on a step of the spec. -/
theorem RowInvariant.move (h : RowInvariant spec w.row) (m : Move spec w r w') :
    RowInvariant spec w'.row := by
  refine ⟨h.toWaitColumns.move m, fun hrun => ?_⟩
  cases m with
  | skip context now running on edge found => exact ⟨_, rfl, found⟩
  | perform effect context now running on performs edge found => exact ⟨_, rfl, found⟩
  | branch context now running on silent edge found => exact ⟨_, rfl, found⟩
  | wait waitKey due now running on kind keyed awaits => cases hrun
  | terminal emitted reason error context now running on ends =>
    rcases ends with rfl | ⟨t, rfl⟩
    · cases hrun
    · exact absurd hrun (terminalStatus_ne t).2
  | route message context now running policy edge found => exact ⟨_, rfl, found⟩
  | retry message attempts due now running => exact h.running running
  | giveUp message attempts now running ends => rcases ends with rfl | rfl <;> cases hrun
  | resume context now waiting on silent edge found => exact ⟨_, rfl, found⟩
  | timeOut context now waiting on silent edge found => exact ⟨_, rfl, found⟩
  | expire step reason now waiting => cases hrun
  | take now running => exact h.running running
  | touch now compensating => exact h.running hrun
  | compensate c effect status fresh => exact h.running hrun
  | compensationFailed c message => exact h.running hrun
  | close error now was ends => rcases ends with rfl | rfl <;> cases hrun
  | cancel step now live => cases hrun

theorem Fresh.rowInvariant (h : Fresh spec w) : RowInvariant spec w.row where
  toWaitColumns := .of_cleared (by simp [h.running]) h.waitEvent h.waitKey fun _ => h.waitDueAt
  running := fun _ => h.current

/-- `start` commits a row in order. Inside an inline flow a route may lead to a step that does not
exist, but such a flow never commits: a terminal step ended the one that did. -/
theorem start_rowInvariant {env : Env} {envs : ℕ → Env} {record : OutboxRecord}
    {id : Uuid} (h : start e env envs record id = .ok w) : RowInvariant e.spec w.row := by
  obtain ⟨w₀, hfresh, -, ⟨-, rfl⟩ | ⟨inline, hrun⟩⟩ := start_ok h
  · exact hfresh.rowInvariant
  · obtain ⟨hwaits, w₁, env₁, last, running, hone, hlast⟩ :=
      runInline_ok (J := fun w => WaitColumns e.spec w.row) (fun _ hJ m => hJ.move m)
        (fun f message next context now running _ =>
          .of_cleared (by simp [Instance.advance, Instance.logStep, running]) rfl rfl fun _ => rfl)
        inline hfresh.rowInvariant.toWaitColumns hfresh.running hrun
    refine ⟨hwaits, fun hr => ?_⟩
    rcases runOne_move hone with ⟨-, -, hne⟩ | ⟨-, -, hreport⟩
    · exact absurd running hne
    · rcases hlast with rfl | rfl
      · obtain ⟨t, ht⟩ := hreport
        exact absurd (ht.symm.trans hr) (terminalStatus_ne t).2
      · exact absurd (hr.symm.trans hreport) nofun

/-- A commit keeps the columns of the instance in order. -/
theorem Commit.rowInvariant {i i' : Option Instance} (h : Commit e r i i')
    (hi : ∀ w, i = some w → RowInvariant e.spec w.row) :
    ∀ w, i' = some w → RowInvariant e.spec w.row := by
  cases h with
  | same => exact hi
  | move m =>
    rintro w ⟨⟩
    exact (hi _ rfl).move m
  | born hstart =>
    rintro w ⟨⟩
    exact start_rowInvariant hstart

/-- Whatever has been done to an instance, its columns fit together. -/
theorem row_invariant (e : Engine) (as : List Act) (w : Instance)
    (h : (World.after e as).inst = some w) : RowInvariant e.spec w.row :=
  Machine.invariant_run (World.step e)
    (I := fun W => ∀ w, W.inst = some w → RowInvariant e.spec w.row)
    (fun W a hI => (W.step_commit a).rowInvariant hI) as (by simp [World.init]) w h

/-- An order that waits for its payment. -/
theorem row_invariant_payment :
    ∃ w, (World.after orders [.placeOrder, .run 0, .txn 0 .calm, .txn 0 .calm]).inst = some w ∧
      w.row.status = .waiting ∧ RowInvariant orderSpec w.row := by
  have h : (World.after orders [.placeOrder, .run 0, .txn 0 .calm, .txn 0 .calm]).inst.map
      (·.row.status) = some .waiting := by decide
  obtain ⟨w, hw, hs⟩ := Option.map_eq_some_iff.mp h
  exact ⟨w, hw, hs, row_invariant orders _ w hw⟩

end Backbone.Workflow
