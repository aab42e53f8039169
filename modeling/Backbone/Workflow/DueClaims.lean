import Backbone.Workflow.World

/-!
# What the sweep takes an instance for

`due_predicate` finds on the database clock that an instance is due, and `claim_due` decides on the
process clock what for: a waiting instance whose wait is not yet over is taken to have passed its
deadline. The answer is right as long as the two clocks agree about the wait.

Reference: `backbone-core/src/workflow/engine.rs` (`due_predicate`, `claim_due`).
-/

namespace Backbone.Workflow

variable {e : Engine} {env : Env} {w w' : Instance} {claim : Claim}

/-- The time is set and has passed. -/
def Passed (t : Option Time) (now : Time) : Prop := ∃ d ∈ t, d ≤ now

instance (t : Option Time) (now : Time) : Decidable (Passed t now) :=
  inferInstanceAs (Decidable (∃ d ∈ t, d ≤ now))

theorem passed_iff {t : Option Time} {now : Time} : Passed t now ↔ t.any (· ≤ now) = true := by
  cases t with
  | none => simp [Passed]
  | some d => simp [Passed]

/-- What the sweep makes of an instance is so on the database clock. -/
structure Justified (now : Time) (w : Instance) (claim : Claim) (w' : Instance) : Prop where
  expired : w'.row.status = .expired → Passed w.row.deadlineAt now
  timedOut : claim = .timedOut → Passed w.row.waitDueAt now

/-- A wait that is over on the process clock is over on the database clock, and when it is not, the
deadline has passed. -/
structure ClocksAgree (env : Env) (row : InstanceRow) : Prop where
  wait : Passed row.waitDueAt env.clock → Passed row.waitDueAt env.now
  deadline : ¬ Passed row.waitDueAt env.clock → Passed row.deadlineAt env.now

theorem claimDue_justified_iff (h : claimDue e env w = .ok (some (claim, w'))) :
    Justified env.now w claim w' ↔ (w.row.status = .waiting → ClocksAgree env w.row) := by
  obtain ⟨-, ⟨waiting, hpassed, rfl, s, next, context, -, -, -, -, rfl⟩ |
    ⟨waiting, hpassed, rfl, name, text, rfl⟩ | ⟨running, hclaim, rfl⟩ |
    ⟨compensating, rfl, rfl⟩⟩ := claimDue_ok h
  · rw [← passed_iff] at hpassed
    constructor
    · exact fun hj _ => ⟨fun _ => hj.timedOut rfl, fun hnot => absurd hpassed hnot⟩
    · exact fun hagree => ⟨fun hexpired => (by cases hexpired),
        fun _ => (hagree waiting).wait hpassed⟩
  · rw [← passed_iff] at hpassed
    constructor
    · exact fun hj _ => ⟨fun hp => absurd hp hpassed, fun _ => hj.expired rfl⟩
    · exact fun hagree => ⟨fun _ => (hagree waiting).deadline hpassed, fun hclaim => by cases hclaim⟩
  · refine iff_of_true ⟨fun hexpired => ?_, fun htimedOut => ?_⟩ fun waiting => ?_
    · rw [show (w.takeRunning env.now).row.status = w.row.status from rfl, running] at hexpired
      cases hexpired
    · rcases hclaim with rfl | rfl <;> cases htimedOut
    · rw [running] at waiting
      cases waiting
  · refine iff_of_true ⟨fun hexpired => ?_, fun htimedOut => ?_⟩ fun waiting => ?_
    · rw [show (w.touch env.now).row.status = w.row.status from rfl, compensating] at hexpired
      cases hexpired
    · cases htimedOut
    · rw [compensating] at waiting
      cases waiting

/-! ## A payment that is waited for -/

def invoices : Engine where
  spec :=
    { name := "invoice"
      triggerEvent := "InvoiceSent"
      steps := [
        { name := "payment",
          kind := .wait (some "PaymentReceived") [] none (some { next := some "paid" })
            (some { next := some "reminded" }) },
        { name := "paid", kind := .terminal .completed none none false none },
        { name := "reminded", kind := .terminal .expired none none false none }] }
  floatText := fun _ => ""

/-- An invoice that waits for its payment. -/
def awaited (waitDueAt deadlineAt : Option Time) : Instance where
  row :=
    { id := 100, workflow := "invoice", version := 1, companyId := 7, orgUnitId := none,
      status := .waiting, currentStep := some "payment", context := .obj [], triggerEventId := 1,
      correlationId := none, deadlineAt, waitEvent := some "PaymentReceived", waitKey := some "",
      waitDueAt, attempts := 0, lastError := none, createdAt := 0, updatedAt := 0 }
  log := []
  executions := []
  emitted := []

/-- The two clocks, where nothing else goes wrong. -/
def clocks (now clock : Time) : Env := { Env.calm with now, clock }

theorem claimDue_justified_iff_deadlinePassed :
    ∃ w', claimDue invoices (clocks 9 8) (awaited (some 20) (some 5)) = .ok (some (.expired, w')) ∧
      Justified 9 (awaited (some 20) (some 5)) .expired w' :=
  ⟨_, rfl, (@claimDue_justified_iff invoices (clocks 9 8) _ _ _ rfl).mpr
    fun _ => ⟨by decide, by decide⟩⟩

/-- The process clock is behind: an invoice without a deadline expires when its wait is over. It is
ahead: an invoice past its deadline is reminded before its wait is over. -/
theorem not_justified :
    (∃ w', claimDue invoices (clocks 9 5) (awaited (some 7) none) = .ok (some (.expired, w')) ∧
      ¬ Justified 9 (awaited (some 7) none) .expired w') ∧
    ∃ w', claimDue invoices (clocks 5 9) (awaited (some 7) (some 3)) = .ok (some (.timedOut, w')) ∧
      ¬ Justified 5 (awaited (some 7) (some 3)) .timedOut w' := by
  refine ⟨⟨_, rfl, fun h => ?_⟩, ⟨_, rfl, fun h => ?_⟩⟩
  · exact absurd (h.expired rfl) (by decide)
  · exact absurd (h.timedOut rfl) (by decide)

end Backbone.Workflow
