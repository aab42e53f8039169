import Mathlib.Data.List.AList
import Backbone.Authorization.Service
import Backbone.Lib.RwLock

/-!
# The event bus and its locks

`publish_envelope` stores the event under the lock of `history`, sends it to the subscribers, and
dispatches it: `dispatch` takes a read guard of `handlers`, collects the handlers of the event's
type and those of `*`, and awaits them one after another with the guard in its hands.
`register_handler` takes the write guard.

A call on the bus is a program over the two locks. A handler may call its bus while it handles an
event, and its dispatch goes on when what it has called has returned: a point has the dispatches
that wait for a handler, the innermost in front, and the phase of the call that is under way. What a
handler answers is logged only and left out, as is what it does beside its calls on the bus.

Reference: `backbone-messaging/src/{bus,handler,envelope}.rs`.
-/

namespace Backbone.Messaging.EventBus

open RwLock
open Authorization (nanosPerSecond maxDurationSeconds minUtc maxUtc)

variable {ε : Type}

/-! ## Events, handlers and calls -/

/-- `EventBusConfig`, but for the size of the broadcast channel's buffer. -/
structure EventBusConfig where
  persistEvents : Bool := false
  retentionSeconds : UInt64 := 86400
  maxHistorySize : ℕ := 10000

/-- `EventEnvelope`, what the bus and its handlers read of it. An instant is in nanoseconds. -/
structure EventEnvelope (ε : Type) where
  id : String
  eventType : String
  publishedAt : ℤ
  event : Option ε

/-- `EventHandler`: which `Arc` it is, and its event types. -/
structure EventHandler where
  arc : ℕ
  eventTypes : List String
deriving DecidableEq, Repr

/-- A call on the bus, with the calls it leads to. -/
inductive Call (ε : Type) where
  /-- `publish_envelope`, the clock when the event is stored, and what the `n`-th handler that it
  awaits calls in its turn. -/
  | publish (envelope : EventEnvelope ε) (storedAt : ℤ) (does : ℕ → EventHandler → List (Call ε))
  /-- `register_handler`. -/
  | register (handler : EventHandler)

/-- `HandlerMap`, the handlers by event type. -/
abbrev HandlerMap := AList fun _ : String => List EventHandler

namespace HandlerMap

/-- `handlers.get(event_type)`, with no handlers where there is no entry. -/
def get (m : HandlerMap) (eventType : String) : List EventHandler :=
  (m.lookup eventType).getD []

/-- `handlers.entry(event_type).or_default().push(handler)`. -/
def push (h : EventHandler) (m : HandlerMap) (eventType : String) : HandlerMap :=
  m.insert eventType (m.get eventType ++ [h])

end HandlerMap

/-- What `register_handler` registers a handler under. -/
def EventHandler.keys (h : EventHandler) : List String :=
  if h.eventTypes.isEmpty then ["*"] else h.eventTypes

/-- `register_handler`, under its guard. -/
def registerHandler (m : HandlerMap) (h : EventHandler) : HandlerMap :=
  h.keys.foldl (HandlerMap.push h) m

/-- The handlers that `dispatch` finds for an event type. -/
def handlersToCall (m : HandlerMap) (eventType : String) : List EventHandler :=
  m.get eventType ++ m.get "*"

/-- `Utc::now() - Duration::seconds(retention_seconds as i64)`, or a panic. -/
def retentionCutoff (now : ℤ) (retentionSeconds : UInt64) : Option ℤ :=
  let seconds := retentionSeconds.toBitVec.toInt
  let cutoff := now - seconds * nanosPerSecond
  if -maxDurationSeconds ≤ seconds ∧ seconds ≤ maxDurationSeconds ∧
      minUtc ≤ cutoff ∧ cutoff ≤ maxUtc then
    some cutoff
  else none

/-- `store_event` from the cutoff on, under its guard. -/
def trimHistory (cfg : EventBusConfig) (cutoff : ℤ) (history : List (EventEnvelope ε)) :
    List (EventEnvelope ε) :=
  -- Trim old events by retention period, and also by max size.
  let recent := history.filter fun e => cutoff < e.publishedAt
  recent.drop (recent.length - cfg.maxHistorySize)

/-! ## The program -/

inductive LockName where
  | handlers
  | history
deriving DecidableEq, Repr

/-- The data of the bus. The last three fields say what has happened and are read by no call: the
handlers in the order of their registrations, the events in the order in which their publishes
began, each with the handlers registered before, and the handler calls, each with the place of its
publish. -/
structure Data (ε : Type) where
  handlers : HandlerMap
  history : List (EventEnvelope ε)
  sent : List (EventEnvelope ε)
  registered : List EventHandler
  begun : List (EventEnvelope ε × List EventHandler)
  calls : List (ℕ × EventHandler)

def Data.new : Data ε := ⟨∅, [], [], [], [], []⟩

/-- A publish under way; `serial` is its place among the publishes that have begun. -/
structure Publish (ε : Type) where
  serial : ℕ
  envelope : EventEnvelope ε
  storedAt : ℤ
  does : ℕ → EventHandler → List (Call ε)

/-- The loop of a `dispatch` at one of its handlers: how many it has called before, the handlers
behind it, and the calls that it has still to make. -/
structure Frame (ε : Type) where
  publish : Publish ε
  before : ℕ
  left : List EventHandler
  calls : List (Call ε)

/-- Where the call under way is. -/
inductive Phase (ε : Type) where
  -- `publish_envelope` and `store_event`
  | publish (envelope : EventEnvelope ε) (storedAt : ℤ) (does : ℕ → EventHandler → List (Call ε))
  | askHistory (p : Publish ε)
  | store (p : Publish ε)
  | dropHistory (p : Publish ε)
  | send (p : Publish ε)
  -- `dispatch`
  | dispatch (p : Publish ε)
  | lookUp (p : Publish ε)
  | next (p : Publish ε) (before : ℕ) (left : List EventHandler)
  | handling (f : Frame ε)
  -- `register_handler`
  | register (h : EventHandler)
  | push (h : EventHandler)
  | dropPushed
  -- back in the handler that called, or at the end
  | returned
  -- the panic of `store_event`, which drops the guards of all dispatches on its way out
  | dropPanicked
  | unwind

/-- Where a call is: the dispatches around the call under way, and its phase. -/
structure Point (ε : Type) where
  frames : List (Frame ε)
  phase : Phase ε

def Call.start : Call ε → Phase ε
  | .publish envelope storedAt does => .publish envelope storedAt does
  | .register h => .register h

/-- What a call does at a point. -/
def instr (cfg : EventBusConfig) : Point ε → Instr LockName (Data ε) (Point ε)
  | ⟨fs, .publish envelope storedAt does⟩ =>
    .access fun s =>
      let p := ⟨s.begun.length, envelope, storedAt, does⟩
      ({ s with begun := s.begun ++ [(envelope, s.registered)] },
        ⟨fs, if cfg.persistEvents then .askHistory p else .send p⟩)
  | ⟨fs, .askHistory p⟩ => .acquire .history .write ⟨fs, .store p⟩
  | ⟨fs, .store p⟩ =>
    .access fun s =>
      let history := s.history ++ [p.envelope]
      match retentionCutoff p.storedAt cfg.retentionSeconds with
      | some cutoff => ({ s with history := trimHistory cfg cutoff history }, ⟨fs, .dropHistory p⟩)
      | none => ({ s with history := history }, ⟨fs, .dropPanicked⟩)
  | ⟨fs, .dropHistory p⟩ => .release .history ⟨fs, .send p⟩
  | ⟨fs, .send p⟩ =>
    .access fun s => ({ s with sent := s.sent ++ [p.envelope] }, ⟨fs, .dispatch p⟩)
  | ⟨fs, .dispatch p⟩ => .acquire .handlers .read ⟨fs, .lookUp p⟩
  | ⟨fs, .lookUp p⟩ =>
    .access fun s => (s, ⟨fs, .next p 0 (handlersToCall s.handlers p.envelope.eventType)⟩)
  | ⟨fs, .next _ _ []⟩ => .release .handlers ⟨fs, .returned⟩
  | ⟨fs, .next p before (h :: left)⟩ =>
    .access fun s =>
      ({ s with calls := s.calls ++ [(p.serial, h)] },
        ⟨fs, .handling ⟨p, before, left, p.does before h⟩⟩)
  | ⟨fs, .handling ⟨p, before, left, []⟩⟩ =>
    -- The handler has answered; with an error too the dispatch goes on to the next one.
    .access fun s => (s, ⟨fs, .next p (before + 1) left⟩)
  | ⟨fs, .handling ⟨p, before, left, c :: calls⟩⟩ =>
    .access fun s => (s, ⟨⟨p, before, left, calls⟩ :: fs, c.start⟩)
  | ⟨fs, .register h⟩ => .acquire .handlers .write ⟨fs, .push h⟩
  | ⟨fs, .push h⟩ =>
    .access fun s =>
      ({ s with handlers := registerHandler s.handlers h, registered := s.registered ++ [h] },
        ⟨fs, .dropPushed⟩)
  | ⟨fs, .dropPushed⟩ => .release .handlers ⟨fs, .returned⟩
  | ⟨f :: fs, .returned⟩ => .access fun s => (s, ⟨fs, .handling f⟩)
  | ⟨[], .returned⟩ => .stop
  | ⟨fs, .dropPanicked⟩ => .release .history ⟨fs, .unwind⟩
  | ⟨_ :: fs, .unwind⟩ => .release .handlers ⟨fs, .unwind⟩
  | ⟨[], .unwind⟩ => .stop

/-- The guard of the call under way itself. -/
def Phase.holds : Phase ε → List LockName
  | .store _ | .dropHistory _ | .dropPanicked => [.history]
  | .lookUp _ | .next _ _ _ | .handling _ | .push _ | .dropPushed => [.handlers]
  | .publish _ _ _ | .askHistory _ | .send _ | .dispatch _ | .register _ | .returned | .unwind => []

/-- The guards a call holds at a point, with that of each dispatch around it. -/
def holds (t : Point ε) : List LockName := t.phase.holds ++ t.frames.map fun _ => .handlers

/-- The calls on the bus. -/
def entry : Point ε → Prop
  | ⟨[], .publish _ _ _⟩ | ⟨[], .register _⟩ => True
  | _ => False

instance : DecidablePred (@entry ε) := fun t => by
  unfold entry
  split <;> infer_instance

theorem wellLocked (cfg : EventBusConfig) (t : Point ε) : (instr cfg t).WellLocked holds t := by
  obtain ⟨fs, phase⟩ := t
  cases phase with
  | publish envelope storedAt does =>
    intro s
    dsimp only
    split <;> rfl
  | store p =>
    intro s
    dsimp only
    split <;> rfl
  | next p before left =>
    cases left with
    | nil => rfl
    | cons h left => exact fun s => rfl
  | handling f =>
    obtain ⟨p, before, left, calls⟩ := f
    cases calls with
    | nil => exact fun s => rfl
    | cons c calls => exact fun s => by cases c <;> rfl
  | returned =>
    cases fs with
    | nil => rfl
    | cons f fs => exact fun s => rfl
  | unwind => cases fs <;> rfl
  | send | lookUp | push => exact fun s => rfl
  | askHistory | dropHistory | dispatch | register | dropPushed | dropPanicked => rfl

/-- The calls on the bus as a program. -/
def program (cfg : EventBusConfig) : Program LockName (Data ε) (Point ε) where
  instr := instr cfg
  holds := holds
  entry := entry
  wellLocked := wellLocked cfg

instance (cfg : EventBusConfig) : DecidablePred (@program ε cfg).entry :=
  inferInstanceAs (DecidablePred (@entry ε))

end Backbone.Messaging.EventBus
