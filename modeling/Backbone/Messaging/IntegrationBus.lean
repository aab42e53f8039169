import Mathlib.Data.List.AList
import Backbone.Lib.Text
import Backbone.Workflow.Expr

/-!
# The integration bus

Handlers are kept by pattern in a hash map. `dispatch` collects those of every pattern that matches the
event in the order of the map's iteration, keeps the first of each name, and calls each until its first
`Ok` or its retry limit; who fails has its dead letter.

Reference: `backbone-messaging/src/{integration_bus,integration,error}.rs`.
-/

namespace Backbone.Messaging

open Workflow (Value Time)

/-- `EventError`. -/
inductive EventError where
  | publishError (message : String)
  | handlerError (handler message : String)
  | serializationError (message : String)
  | notFound (message : String)
  | busClosed
  | channelError (message : String)
  | timeout
  | invalidEventType (message : String)
  | duplicateHandler (message : String)
deriving DecidableEq, Repr

/-- How an `EventError` displays. -/
def EventError.text : EventError → String
  | .publishError m => "Failed to publish event: " ++ m
  | .handlerError handler m => "Handler '" ++ handler ++ "' failed: " ++ m
  | .serializationError m => "Serialization error: " ++ m
  | .notFound m => "Event not found: " ++ m
  | .busClosed => "Event bus is closed"
  | .channelError m => "Channel send error: " ++ m
  | .timeout => "Timeout waiting for event"
  | .invalidEventType m => "Invalid event type: " ++ m
  | .duplicateHandler m => "Handler already registered: " ++ m

/-- `IntegrationEventEnvelope`. -/
structure IntegrationEventEnvelope where
  id : String
  eventType : String
  sourceContext : String
  aggregateId : String
  occurredAt : Time
  publishedAt : Time
  version : ℕ
  correlationId : Option String
  causationId : Option String
  payload : Value

/-- `IntegrationEventHandler`: which `Arc` it is, and what its methods answer. -/
structure IntegrationEventHandler where
  arc : ℕ
  name : String
  eventPatterns : List String
  shouldRetry : Bool := true
  maxRetries : ℕ := 3
deriving DecidableEq, Repr

/-- `IntegrationBusConfig`. -/
structure IntegrationBusConfig where
  persistEvents : Bool := true
  maxHistorySize : ℕ := 100000
  enableDeadLetterQueue : Bool := true

/-- `DeadLetterEntry`. -/
structure DeadLetterEntry where
  envelope : IntegrationEventEnvelope
  handlerName : String
  error : String
  retryCount : ℕ
  failedAt : Time

/-- `HandlerMap`. -/
abbrev HandlerMap := AList fun _ : String => List IntegrationEventHandler

/-- `IntegrationEventBus`. -/
structure IntegrationEventBus where
  handlers : HandlerMap := ∅
  history : List IntegrationEventEnvelope := []
  deadLetterQueue : List DeadLetterEntry := []
  config : IntegrationBusConfig := {}

/-- What the handlers do in one dispatch: the answer to each call, and the clock of each failure. -/
structure Surroundings where
  answer : IntegrationEventHandler → ℕ → Except EventError Unit
  clock : IntegrationEventHandler → Time

/-- `matches_pattern`. -/
def matchesPattern (pattern eventType : String) : Bool :=
  if pattern == "*" then true
  else
    match Text.stripSuffix pattern ".*" with
    | some start => Text.startsWith eventType start
    | none => pattern == eventType

/-- `IntegrationEventEnvelope::matches_pattern`. -/
def IntegrationEventEnvelope.matchesPattern (envelope : IntegrationEventEnvelope) (pattern : String) :
    Bool :=
  Messaging.matchesPattern pattern envelope.eventType

/-- `entry(pattern).or_default().push(handler)`. -/
def pushHandler (handler : IntegrationEventHandler) (m : HandlerMap) (pattern : String) : HandlerMap :=
  m.insert pattern ((m.lookup pattern).getD [] ++ [handler])

/-- The attempts one handler is given. -/
def IntegrationEventHandler.retryLimit (h : IntegrationEventHandler) : ℕ :=
  if h.shouldRetry then h.maxRetries else 1

/-- The loop of `call_handler_with_retry`, from an attempt on: how many calls it makes, and its answer.
The waits between two attempts are left out. -/
def callFrom (name : String) (answer : ℕ → Except EventError Unit) :
    ℕ → Option EventError → ℕ → ℕ × Except EventError Unit
  | _, last, 0 => (0, .error (last.getD (.handlerError name "Unknown error")))
  | attempt, _, left + 1 =>
    match answer attempt with
    | .ok () => (1, .ok ())
    | .error e =>
      let rest := callFrom name answer (attempt + 1) (some e) left
      (rest.1 + 1, rest.2)

/-- `call_handler_with_retry`. -/
def callHandlerWithRetry (h : IntegrationEventHandler) (answer : ℕ → Except EventError Unit) :
    ℕ × Except EventError Unit :=
  callFrom h.name answer 0 none h.retryLimit

/-- `retain(|h| seen.insert(h.name()))`. -/
def retainNew : List String → List IntegrationEventHandler → List IntegrationEventHandler
  | _, [] => []
  | seen, h :: rest =>
    if h.name ∈ seen then retainNew seen rest else h :: retainNew (h.name :: seen) rest

/-- The handlers of the patterns that match, in the order of the map's iteration. -/
def collect (order : List (Sigma fun _ : String => List IntegrationEventHandler)) (eventType : String) :
    List IntegrationEventHandler :=
  order.flatMap fun e => if matchesPattern e.1 eventType then e.2 else []

namespace IntegrationEventBus

variable (b : IntegrationEventBus)

/-- `register_handler`. -/
def registerHandler (h : IntegrationEventHandler) : IntegrationEventBus :=
  { b with handlers := h.eventPatterns.foldl (pushHandler h) b.handlers }

/-- `store_event`. -/
def storeEvent (envelope : IntegrationEventEnvelope) : IntegrationEventBus :=
  let history := b.history ++ [envelope]
  { b with history := history.drop (history.length - b.config.maxHistorySize) }

/-- `add_to_dead_letter`. -/
def addToDeadLetter (envelope : IntegrationEventEnvelope) (handlerName error : String) (now : Time) :
    IntegrationEventBus :=
  { b with
    deadLetterQueue := b.deadLetterQueue ++ [{
      envelope, handlerName, error
      -- Already exhausted retries
      retryCount := 3
      failedAt := now }] }

/-- The loop of `dispatch`, with the calls it makes. -/
def callAll (u : Surroundings) (envelope : IntegrationEventEnvelope) :
    List IntegrationEventHandler → IntegrationEventBus →
      List IntegrationEventHandler × IntegrationEventBus
  | [], b => ([], b)
  | h :: rest, b =>
    let called := callHandlerWithRetry h (u.answer h)
    let b' :=
      match called.2 with
      | .ok () => b
      | .error e =>
        if b.config.enableDeadLetterQueue then b.addToDeadLetter envelope h.name e.text (u.clock h)
        else b
    let after := callAll u envelope rest b'
    (List.replicate called.1 h ++ after.1, after.2)

/-- `dispatch`, which finds the map's entries in some order. -/
def dispatch (u : Surroundings) (order : List (Sigma fun _ : String => List IntegrationEventHandler))
    (envelope : IntegrationEventEnvelope) : List IntegrationEventHandler × IntegrationEventBus :=
  callAll u envelope (retainNew [] (collect order envelope.eventType)) b

/-- `publish_envelope`. -/
def publishEnvelope (u : Surroundings)
    (order : List (Sigma fun _ : String => List IntegrationEventHandler))
    (envelope : IntegrationEventEnvelope) : List IntegrationEventHandler × IntegrationEventBus :=
  (if b.config.persistEvents then b.storeEvent envelope else b).dispatch u order envelope

end IntegrationEventBus

end Backbone.Messaging
