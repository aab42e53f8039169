import Backbone.Workflow.World

/-!
# The life of an instance

`Status.canBecome` is the graph of the statuses. Every committed change of a status is one of its
edges (`Move.canBecome`), whatever the processes hold from an earlier transaction, since each
transaction reads the status again under the row lock. `lifecycle` reads off what a whole run may do.
-/

namespace Backbone.Workflow

/-- The ends nothing follows. -/
def Status.settled : Status → Bool
  | .completed | .expired | .compensated | .cancelled => true
  | _ => false

/-- The statuses one committed transaction may lead to. -/
def Status.canBecome : Status → Status → Bool
  | .running, s => s != .compensated
  | .waiting, s => s == .waiting || s == .running || s == .expired || s == .cancelled
  | .compensating, s =>
    s == .compensating || s == .compensated || s == .failed || s == .cancelled
  | .failed, s => s == .failed || s == .compensated
  | .completed, s => s == .completed
  | .expired, s => s == .expired
  | .compensated, s => s == .compensated
  | .cancelled, s => s == .cancelled

theorem Status.canBecome_self (s : Status) : s.canBecome s = true := by
  cases s <;> rfl

variable {t : Status}

/-- A settled status stays. -/
theorem Status.eq_of_settled {s : Status} (h : s.canBecome t = true) (settled : s.settled = true) :
    t = s := by
  cases s <;> simp_all [Status.settled, Status.canBecome]

theorem Status.canBecome_of_failed (h : Status.failed.canBecome t = true) :
    t = .failed ∨ t = .compensated := by
  simpa [Status.canBecome] using h

theorem Status.canBecome_of_compensating (h : Status.compensating.canBecome t = true) :
    t = .compensating ∨ t = .compensated ∨ t = .failed ∨ t = .cancelled := by
  simpa [Status.canBecome, or_assoc] using h

theorem Status.canBecome_compensating {s : Status} (h : s.canBecome .compensating = true) :
    s = .compensating ∨ s = .running := by
  cases s <;> simp_all [Status.canBecome]

section

variable {e : Engine} {r : Report} {w w' : Instance} {spec : WorkflowSpec}

theorem canBecome_terminalStatus (t : Terminal) :
    Status.running.canBecome (terminalStatus t) = true := by
  cases t <;> rfl

/-- A move follows the graph of the statuses. -/
theorem Move.canBecome (m : Move spec w r w') : w.row.status.canBecome w'.row.status = true := by
  cases m with
  | skip context now running on edge found => exact Status.canBecome_self _
  | perform effect context now running on performs edge found => exact Status.canBecome_self _
  | branch context now running on silent edge found => exact Status.canBecome_self _
  | wait waitKey due now running on kind keyed awaits => rw [running]; rfl
  | terminal emitted reason error context now running on ends =>
    rw [running]
    rcases ends with rfl | ⟨t, rfl⟩
    · rfl
    · exact canBecome_terminalStatus t
  | route message context now running policy edge found => exact Status.canBecome_self _
  | retry message attempts due now running => exact Status.canBecome_self _
  | giveUp message attempts now running ends =>
    rw [running]
    rcases ends with rfl | rfl <;> rfl
  | resume context now waiting on silent edge found => rw [waiting]; rfl
  | timeOut context now waiting on silent edge found => rw [waiting]; rfl
  | expire step reason now waiting => rw [waiting]; rfl
  | take now running => exact Status.canBecome_self _
  | touch now compensating => exact Status.canBecome_self _
  | compensate c effect status fresh => exact Status.canBecome_self _
  | compensationFailed c message => exact Status.canBecome_self _
  | close error now was ends =>
    rcases was with was | was <;> rw [was] <;> rcases ends with rfl | rfl <;> rfl
  | cancel step now live =>
    unfold InstanceRow.isFinal at live
    cases hs : w.row.status <;> simp_all [Status.canBecome, Instance.markCancelled]

/-- The columns of a settled instance that nothing writes again. -/
structure Kept (w w' : Instance) : Prop where
  status : w'.row.status = w.row.status
  currentStep : w'.row.currentStep = w.row.currentStep
  context : w'.row.context = w.row.context

/-- A move leaves the status, the step and the context of a settled instance alone. -/
theorem Move.kept (m : Move spec w r w') (settled : w.row.status.settled = true) : Kept w w' := by
  refine ⟨Status.eq_of_settled m.canBecome settled, ?_, ?_⟩
  all_goals
    cases m with
    | compensate => rfl
    | compensationFailed => rfl
    | touch => rfl
    | take => rfl
    | close => rfl
    | cancel step now live =>
      unfold InstanceRow.isFinal at live
      cases hs : w.row.status <;> simp_all [Status.settled]
    | _ => simp_all [Status.settled]

/-- What a run does to an instance from one of its states to a later one. -/
structure Later (w w' : Instance) : Prop where
  settled : w.row.status.settled = true → Kept w w'
  failed : w.row.status = .failed → w'.row.status = .failed ∨ w'.row.status = .compensated

theorem Later.refl (w : Instance) : Later w w :=
  ⟨fun _ => ⟨rfl, rfl, rfl⟩, fun h => .inl h⟩

theorem Later.trans {w₁ w₂ w₃ : Instance} (h₁ : Later w₁ w₂) (h₂ : Later w₂ w₃) : Later w₁ w₃ where
  settled := by
    intro hs
    obtain ⟨hstatus, hstep, hcontext⟩ := h₁.settled hs
    obtain ⟨hstatus', hstep', hcontext'⟩ := h₂.settled (hstatus ▸ hs)
    exact ⟨hstatus'.trans hstatus, hstep'.trans hstep, hcontext'.trans hcontext⟩
  failed := by
    intro hf
    rcases h₁.failed hf with hf | hc
    · exact h₂.failed hf
    · exact .inr ((h₂.settled (by rw [hc]; rfl)).status.trans hc)

theorem Move.later (m : Move spec w r w') : Later w w' :=
  ⟨m.kept, fun hf => Status.canBecome_of_failed (hf ▸ m.canBecome)⟩

/-- An instance that `start` commits as compensating was running until its last step. -/
theorem start_compensating {env : Env} {envs : ℕ → Env} {record : OutboxRecord} {id : Uuid}
    (h : start e env envs record id = .ok w) (hc : w.row.status = .compensating) :
    ∃ w₀ env₀, w₀.row.status = .running ∧ runOne e env₀ w₀ = .ok (.compensate, w) := by
  obtain ⟨w₀, hfresh, -, ⟨-, rfl⟩ | ⟨inline, hrun⟩⟩ := start_ok h
  · rw [hfresh.running] at hc
    cases hc
  · obtain ⟨-, w₁, env₁, last, running, hone, hlast⟩ := runInline_ok (J := fun _ => True)
      (fun _ _ _ => trivial) (fun _ _ _ _ _ _ _ => trivial) inline trivial hfresh.running hrun
    rcases hlast with rfl | rfl
    · rcases runOne_move hone with ⟨-, hne, -⟩ | ⟨-, -, t, ht⟩
      · cases hne
      · rw [ht] at hc
        cases t <;> cases hc
    · exact ⟨w₁, env₁, running, hone⟩

/-- How one step of a run enters and leaves `compensating`. -/
structure CompensatingEdges (e : Engine) (i i' : Option Instance) : Prop where
  entered : ∀ w w', i = some w → i' = some w' → w'.row.status = .compensating →
    w.row.status = .compensating ∨ w.row.status = .running
  /-- A flow without persistence runs inside the transaction that creates it. -/
  born : ∀ w', i = none → i' = some w' → w'.row.status = .compensating →
    ∃ w₀ env₀, w₀.row.status = .running ∧ runOne e env₀ w₀ = .ok (.compensate, w')
  left : ∀ w w', i = some w → i' = some w' → w.row.status = .compensating →
    w'.row.status = .compensating ∨ w'.row.status = .compensated ∨ w'.row.status = .failed ∨
      w'.row.status = .cancelled

theorem Commit.compensatingEdges {i i' : Option Instance} (h : Commit e r i i') :
    CompensatingEdges e i i' := by
  cases h with
  | same =>
    refine ⟨?_, ?_, ?_⟩
    · rintro w w' rfl ⟨⟩ hc
      exact .inl hc
    · rintro w' rfl ⟨⟩
    · rintro w w' rfl ⟨⟩ hc
      exact .inl hc
  | move m =>
    refine ⟨?_, ?_, ?_⟩
    · rintro w w' ⟨⟩ ⟨⟩ hc
      exact Status.canBecome_compensating (hc ▸ m.canBecome)
    · rintro w' ⟨⟩
    · rintro w w' ⟨⟩ ⟨⟩ hc
      exact Status.canBecome_of_compensating (hc ▸ m.canBecome)
  | born h =>
    refine ⟨?_, ?_, ?_⟩
    · rintro w w' ⟨⟩
    · rintro w' - ⟨⟩ hc
      exact start_compensating h hc
    · rintro w w' ⟨⟩

end

/-- In every run, from a state reached by `as` to a later one reached by `as ++ bs`: a settled
instance keeps its status, step and context, a failed one stays failed or becomes compensated, and
every step enters and leaves `compensating` along its edges. -/
theorem lifecycle (e : Engine) (as bs : List Act) :
    (∀ w, (World.after e as).inst = some w →
      ∃ w', (World.after e (as ++ bs)).inst = some w' ∧ Later w w') ∧
    ∀ a, CompensatingEdges e (World.after e as).inst (World.after e (as ++ [a])).inst := by
  refine ⟨fun w hw => ?_, fun a => ?_⟩
  · exact World.inst_rel Later.refl Later.trans Move.later as bs hw
  · rw [World.after, World.after, Machine.run_append]
    exact (World.step_commit _ a).compensatingEdges

/-- An order cancelled while it waits stays cancelled when its payment comes. -/
theorem lifecycle_cancelled :
    ∃ w, (World.after orders [.placeOrder, .cancel .calm]).inst = some w ∧
      w.row.status = .cancelled ∧
      ∃ w', (World.after orders ([.placeOrder, .cancel .calm] ++ [.run 0, .txn 0 .calm])).inst =
        some w' ∧ Later w w' := by
  have h : (World.after orders [.placeOrder, .cancel .calm]).inst.map (·.row.status) =
      some .cancelled := by decide
  obtain ⟨w, hw, hs⟩ := Option.map_eq_some_iff.mp h
  exact ⟨w, hw, hs, (lifecycle orders _ _).1 w hw⟩

end Backbone.Workflow
