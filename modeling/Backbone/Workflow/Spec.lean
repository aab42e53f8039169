import Backbone.Workflow.Expr

/-!
# The compiled workflow

Reference: `backbone-core/src/workflow/spec.rs`.

A `WorkflowSpec` is a workflow's steps as data. `StepSpec.edges` collects where a step may send the
instance: every successor the spec declares for it, on success, by a branch, out of a wait, and
along its own failure route.
-/

namespace Backbone.Workflow

/-- How long to wait between attempts of a step that failed for a transient reason. -/
inductive Backoff where
  | exponential
  | fixed (secs : ℤ)
deriving DecidableEq, Repr

/-- The retry policy of a workflow or of one step. -/
structure RetrySpec where
  maxAttempts : ℕ
  backoff : Backoff
deriving DecidableEq, Repr

/-- What a step does when it succeeds (or when a wait is answered or times out). -/
structure Outcome where
  set : List (String × Tpl) := []
  next : Option String := none
deriving Repr

/-- What a step does when it fails. -/
structure FailureSpec where
  next : Option String := none
  set : List (String × Tpl) := []
  retry : Option RetrySpec := none
  onExhausted : Option Outcome := none
deriving Repr

/-- One branch of a condition step; a branch with no `when` is the `else`. -/
structure Branch where
  cond : Option Expr := none
  set : List (String × Tpl) := []
  next : String
deriving Repr

/-- One equality of a wait's condition: the event's field must equal the context expression. -/
structure WaitKey where
  eventField : String
  context : Expr
deriving Repr

/-- How a terminal step ends the instance. -/
inductive Terminal where
  | completed | failed | expired | cancelled
deriving DecidableEq, Repr

/-- An event a terminal step stages. -/
structure EmitSpec where
  event : String
  data : Tpl
deriving Repr

/-- What a step is. -/
inductive StepKind where
  | action (action : String) (entity : Option String) (id : Option Tpl)
      (params : List (String × Tpl)) (onSuccess : Outcome) (onTimeout : Option Outcome)
  | transition (entity : String) (id : Tpl) (verb : String) (params : List (String × Tpl))
      (onSuccess : Outcome)
  | condition (branches : List Branch)
  | wait (event : Option String) (key : List WaitKey) (timeout : Option Dur)
      (onEvent : Option Outcome) (onTimeout : Option Outcome)
  | terminal (status : Terminal) (reason : Option Tpl) (emit : Option EmitSpec)
      (compensate : Bool) (result : Option Tpl)
deriving Repr

/-- Whether the step performs something: an action or a transition. -/
def StepKind.performs : StepKind → Bool
  | .action .. => true
  | .transition .. => true
  | _ => false

/-- One step. -/
structure StepSpec where
  name : String
  guard : Option Expr := none
  kind : StepKind
  onFailure : Option FailureSpec := none
  callTimeout : Option ℤ := none
deriving Repr

/-- One compensation step. -/
structure CompStep where
  name : String
  cond : Option Expr := none
  action : String
  entity : Option String := none
  id : Option Tpl := none
  params : List (String × Tpl) := []
  verb : Option String := none
deriving Repr

/-- The label the step log records a compensation step under. -/
def CompStep.label (c : CompStep) : String := "compensate:" ++ c.name

/-- The compiled workflow. -/
structure WorkflowSpec where
  name : String
  version : ℤ := 1
  triggerEvent : String
  extract : List (String × Expr) := []
  context : List (String × Value) := []
  persistence : Bool := true
  timeout : Option Dur := none
  retry : Option RetrySpec := none
  steps : List StepSpec
  compensation : List CompStep := []
deriving Repr

/-- The step called `name`. -/
def WorkflowSpec.step (spec : WorkflowSpec) (name : String) : Option StepSpec :=
  spec.steps.find? (·.name == name)

theorem WorkflowSpec.name_of_step {spec : WorkflowSpec} {name : String} {s : StepSpec}
    (h : spec.step name = some s) : s.name = name := by
  simpa using List.find?_some h

/-! ## Where a step may send the instance -/

/-- The successors a step's kind declares: success, branches, a wait's two outcomes, and the
`on_timeout` of a hand call. -/
def StepKind.successors : StepKind → List String
  | .action _ _ _ _ onSuccess onTimeout =>
    onSuccess.next.toList ++ (onTimeout.bind (·.next)).toList
  | .transition _ _ _ _ onSuccess => onSuccess.next.toList
  | .condition branches => branches.map (·.next)
  | .wait _ _ _ onEvent onTimeout =>
    (onEvent.bind (·.next)).toList ++ (onTimeout.bind (·.next)).toList
  | .terminal .. => []

/-- The successors of a failure policy: its `next`, and the `next` of its `on_exhausted`. -/
def FailureSpec.successors (p : FailureSpec) : List String :=
  p.next.toList ++ (p.onExhausted.bind (·.next)).toList

/-- Every step the spec lets the instance go to from `step`. -/
def StepSpec.edges (step : StepSpec) : List String :=
  step.kind.successors ++ (step.onFailure.map FailureSpec.successors).getD []

/-- The spec declares an edge from the step called `a` to `b`. -/
def WorkflowSpec.Edge (spec : WorkflowSpec) (a b : String) : Prop :=
  ∃ s, spec.step a = some s ∧ b ∈ s.edges

/-- What a definition is asked to perform. -/
structure Call where
  step : String
  action : String
  entity : Option String
  id : Option String
  verb : Option String
  params : Value
  context : Value

end Backbone.Workflow
