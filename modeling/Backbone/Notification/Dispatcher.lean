import Backbone.Outbox.Relay

/-!
# The notification dispatcher

Relays hand outbox records to one dispatcher. A call of `deliver` reads how many attempts were made
from a map, claims the record in the inbox, calls the delivery, commits or rolls back, and writes the
map; each of these is a step, and a claim waits for a concurrent claim of the same record to end.

Reference: `backbone-core/src/notification.rs` and `backbone-outbox/src/inbox.rs`.
-/

namespace Backbone.Notification

open Outbox (OutboxRecord Verdict)
open Workflow (Uuid Time Value)

/-- What a delivery says about one request. -/
inductive DeliveryOutcome where
  | delivered
  | retry (reason : String)
  | reject (reason : String)
deriving DecidableEq, Repr

/-- The payload of a request. -/
structure NotificationRequested where
  channel : String
  template : Option String
  body : Option String
  /-- `to`. -/
  recipients : Value
  data : Value
  trigger : String

def NotificationRequested.name : String := "NotificationRequested"

/-- One staged request, as a delivery sees it. -/
structure PendingNotification where
  id : Uuid
  request : NotificationRequested
  aggregateType : String
  aggregateId : String
  companyId : Uuid
  orgUnitId : Option Uuid
  correlationId : Option String
  causationId : Option String
  occurredAt : Time
  /-- Which attempt this is, counting from 1. -/
  attempt : ℕ

/-- `from_record`; `fromValue` is the derived deserialisation of the payload. -/
def PendingNotification.fromRecord (fromValue : Value → Except String NotificationRequested)
    (record : OutboxRecord) (attempt : ℕ) : Except String PendingNotification :=
  match fromValue record.payload with
  | .ok request => .ok
      { id := record.id
        request := request
        aggregateType := record.aggregateType
        aggregateId := record.aggregateId
        companyId := record.companyId
        orgUnitId := record.orgUnitId
        correlationId := record.correlationId
        causationId := record.causationId
        occurredAt := record.occurredAt
        attempt := attempt }
  | .error e => .error e

/-! ## The retry policy

A duration and an instant are their nanoseconds. -/

/-- `Duration::MAX`. -/
def maxDuration : ℕ := 2 ^ 64 * 1000000000 - 1

structure RetryPolicy where
  maxAttempts : ℕ
  baseDelay : ℕ
  maxDelay : ℕ

namespace RetryPolicy

def default : RetryPolicy := ⟨5, 30 * 1000000000, 15 * 60 * 1000000000⟩

def immediate (maxAttempts : ℕ) : RetryPolicy := ⟨maxAttempts, 0, 0⟩

/-- The wait after the `attempts`-th `Retry`. -/
def backoff (policy : RetryPolicy) (attempts : ℕ) : ℕ :=
  let doublings := min (attempts - 1) 20
  min (min (policy.baseDelay * 2 ^ doublings) maxDuration) policy.maxDelay

end RetryPolicy

/-- `Instant::now() + wait` panics past this. -/
def maxInstant : ℕ := 2 ^ 63 * 1000000000 - 1

/-- What the dispatcher remembers about a record that has answered `Retry`. -/
structure Attempts where
  made : ℕ
  notBefore : ℕ
deriving DecidableEq

/-- What a dispatcher is built with, and the rows it is handed, which never change once staged. -/
structure NotificationDispatcher where
  policy : RetryPolicy
  /-- `with_retry` asks for at least one attempt. -/
  maxAttempts_pos : 0 < policy.maxAttempts
  rows : Uuid → OutboxRecord
  rows_id : ∀ id, (rows id).id = id
  fromValue : Value → Except String NotificationRequested

namespace NotificationDispatcher

def withRetry (d : NotificationDispatcher) (policy : RetryPolicy) : NotificationDispatcher :=
  { d with
    policy := { policy with maxAttempts := max policy.maxAttempts 1 }
    maxAttempts_pos := Nat.lt_of_lt_of_le Nat.one_pos (Nat.le_max_right _ _) }

def isRequest (d : NotificationDispatcher) (id : Uuid) : Prop :=
  (d.rows id).eventType = NotificationRequested.name

instance (d : NotificationDispatcher) (id : Uuid) : Decidable (d.isRequest id) :=
  inferInstanceAs (Decidable (_ = _))

/-- The payload is not a request. -/
def malformed (d : NotificationDispatcher) (id : Uuid) : Prop :=
  ∃ e, d.fromValue (d.rows id).payload = .error e

end NotificationDispatcher

/-! ## Calls of `deliver` -/

/-- How far a call of `deliver` is. -/
inductive Phase where
  /-- It is to read the map. -/
  | reading
  | beginning (n : PendingNotification)
  | claiming (n : PendingNotification)
  /-- The record was claimed before; the empty transaction is to be rolled back. -/
  | unclaimed
  /-- The record is claimed, and the delivery is to be called. -/
  | calling (n : PendingNotification)
  /-- The delivery is being called. -/
  | delivering (n : PendingNotification)
  | committing (n : PendingNotification)
  | rollingBackRetry (n : PendingNotification) (reason : String)
  | rollingBackReject (reason : String)
  /-- The record is to be forgotten and the answer is `Ok`. -/
  | settled
  /-- The claim is rolled back, and the map is to be written. -/
  | retried (n : PendingNotification) (reason : String)
  | rejected (reason : String)
  | answered (verdict : Verdict)
  | panicked

structure Handler where
  id : Uuid
  phase : Phase

/-- How a commit ends. -/
inductive CommitResult where
  | committed
  | failed (e : String)
  /-- Committed, but the caller is told of an error. -/
  | lost (e : String)

structure Deliveries where
  retrying : Uuid → Option Attempts
  /-- The committed claims in the inbox. -/
  consumed : Uuid → Bool
  /-- The call whose open transaction claims the record. -/
  claimed : Uuid → Option ℕ
  handlers : ℕ → Option Handler
  clock : ℕ

inductive Act where
  /-- A relay calls `deliver` with the record. -/
  | hand (i : ℕ) (id : Uuid)
  | read (i : ℕ)
  | begin (i : ℕ) (error : Option String)
  | claim (i : ℕ) (error : Option String)
  | call (i : ℕ)
  | answer (i : ℕ) (outcome : DeliveryOutcome)
  | commit (i : ℕ) (result : CommitResult)
  | rollback (i : ℕ)
  /-- The map is written, and the call answers. -/
  | write (i : ℕ)
  | elapse (nanos : ℕ)

/-- The attempts made, unless the record is still in the wait after the last. -/
def madeAt (clock : ℕ) : Option Attempts → Option ℕ
  | some state => if clock < state.notBefore then none else some state.made
  | none => some 0

namespace Deliveries

def init (now : ℕ) : Deliveries := ⟨fun _ => none, fun _ => false, fun _ => none, fun _ => none, now⟩

def setPhase (w : Deliveries) (i : ℕ) (id : Uuid) (phase : Phase) : Deliveries :=
  { w with handlers := Function.update w.handlers i (some ⟨id, phase⟩) }

def forget (w : Deliveries) (id : Uuid) : Deliveries :=
  { w with retrying := Function.update w.retrying id none }

/-- The transaction that claims the record ends, with the claim or without. -/
def release (w : Deliveries) (id : Uuid) (committed : Bool) : Deliveries :=
  { w with
    consumed := Function.update w.consumed id (w.consumed id || committed)
    claimed := Function.update w.claimed id none }

/-- One step; what cannot happen leaves everything as it is. -/
def step (d : NotificationDispatcher) (w : Deliveries) : Act → Deliveries
  | .hand i id =>
    match w.handlers i with
    | none => w.setPhase i id (if d.isRequest id then .reading else .answered .ok)
    | some _ => w
  | .read i =>
    match w.handlers i with
    | some ⟨id, .reading⟩ =>
      match madeAt w.clock (w.retrying id) with
      | none => w.setPhase i id
          (.answered (.publish ("notification " ++ toString id ++ " waits for its next attempt")))
      | some made =>
        match PendingNotification.fromRecord d.fromValue (d.rows id) (made + 1) with
        | .ok n => w.setPhase i id (.beginning n)
        | .error e => w.setPhase i id
            (.answered (.exhausted ("the payload is not a NotificationRequested: " ++ e)))
    | _ => w
  | .begin i error =>
    match w.handlers i with
    | some ⟨id, .beginning n⟩ =>
      match error with
      | none => w.setPhase i id (.claiming n)
      | some e => w.setPhase i id (.answered (.publish ("begin: " ++ e)))
    | _ => w
  | .claim i error =>
    match w.handlers i with
    | some ⟨id, .claiming n⟩ =>
      match error with
      | some e => w.setPhase i id (.answered (.publish ("inbox: " ++ e)))
      | none =>
        -- A claim of the same record that has not ended is waited for.
        if (w.claimed id).isSome then w
        else if w.consumed id then w.setPhase i id .unclaimed
        else
          { w with claimed := Function.update w.claimed id (some i) }.setPhase i id (.calling n)
    | _ => w
  | .call i =>
    match w.handlers i with
    | some ⟨id, .calling n⟩ => w.setPhase i id (.delivering n)
    | _ => w
  | .answer i outcome =>
    match w.handlers i with
    | some ⟨id, .delivering n⟩ =>
      match outcome with
      | .delivered => w.setPhase i id (.committing n)
      | .retry reason => w.setPhase i id (.rollingBackRetry n reason)
      | .reject reason => w.setPhase i id (.rollingBackReject reason)
    | _ => w
  | .commit i result =>
    match w.handlers i with
    | some ⟨id, .committing _⟩ =>
      match result with
      | .committed => (w.release id true).setPhase i id .settled
      | .failed e => (w.release id false).setPhase i id (.answered (.publish ("commit: " ++ e)))
      | .lost e => (w.release id true).setPhase i id (.answered (.publish ("commit: " ++ e)))
    | _ => w
  | .rollback i =>
    match w.handlers i with
    | some ⟨id, .unclaimed⟩ => w.setPhase i id .settled
    | some ⟨id, .rollingBackRetry n reason⟩ =>
      (w.release id false).setPhase i id (.retried n reason)
    | some ⟨id, .rollingBackReject reason⟩ => (w.release id false).setPhase i id (.rejected reason)
    | _ => w
  | .write i =>
    match w.handlers i with
    | some ⟨id, .settled⟩ => (w.forget id).setPhase i id (.answered .ok)
    | some ⟨id, .retried n reason⟩ =>
      -- The attempt is the one after those the call read in the map.
      if d.policy.maxAttempts ≤ n.attempt then
        (w.forget id).setPhase i id (.answered (.exhausted
          ("gave up after " ++ toString n.attempt ++ " attempts: " ++ reason)))
      else if w.clock + d.policy.backoff n.attempt ≤ maxInstant then
        let state : Attempts := ⟨n.attempt, w.clock + d.policy.backoff n.attempt⟩
        { w with retrying := Function.update w.retrying id (some state) }.setPhase i id
          (.answered (.publish reason))
      else w.setPhase i id .panicked
    | some ⟨id, .rejected reason⟩ => (w.forget id).setPhase i id (.answered (.exhausted reason))
    | _ => w
  | .elapse nanos => { w with clock := w.clock + nanos }

end Deliveries

end Backbone.Notification
