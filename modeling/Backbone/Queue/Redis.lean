import Mathlib.Data.List.Sort
import Backbone.Lib.Run

/-!
# The Redis queue

A queue is three sorted sets of serialized messages: the queue, what is being processed, and the dead
letters. Each operation sends its commands one after another, a batch as one pipeline that is no
transaction, so commands of several clients interleave; most results are ignored.

A member stands for its text, the message's JSON. The statistics, which no operation reads, are left
out, and so is what `Result` a client makes of an answer.

Reference: `backbone-queue/src/redis.rs` and `backbone-queue/src/types.rs`.
-/

namespace Backbone.Queue.Redis

inductive QueuePriority where
  | low | normal | high | critical
deriving DecidableEq, Repr

/-- `as i32`. -/
def QueuePriority.value : QueuePriority → ℤ
  | .low => 1
  | .normal => 5
  | .high => 10
  | .critical => 20

inductive MessageStatus where
  | pending | processing | acknowledged | failed | deadLettered | deleted
deriving DecidableEq, Repr

/-- `QueueMessage`; an instant is its nanoseconds since the epoch, and `payload` is every field that no
operation reads. -/
structure QueueMessage (π : Type) where
  id : String
  payload : π
  priority : QueuePriority
  receiveCount : ℕ
  maxReceiveCount : ℕ
  visibleAt : ℤ
  /-- In seconds. -/
  visibilityTimeout : ℕ
  status : MessageStatus
deriving DecidableEq

inductive QueueError where
  | messageTooLarge (size max : ℕ)
  | redisOperation (message : String)
  | other (message : String)
deriving DecidableEq, Repr

/-- `MAX_MESSAGE_SIZE`. -/
def maxMessageSize : ℕ := 256 * 1024

variable {π : Type}

namespace QueueMessage

def shouldDeadLetter (m : QueueMessage π) : Bool := m.maxReceiveCount ≤ m.receiveCount

def resetForRetry (m : QueueMessage π) (now : ℤ) (delaySeconds : Option ℕ) : QueueMessage π :=
  { m with status := .pending, visibleAt := now + (delaySeconds.getD 0 : ℕ) * 1000000000 }

/-- `validate`, and the check of the size of the text. -/
def check (text : QueueMessage π → String) (m : QueueMessage π) : Except QueueError Unit :=
  if m.id.isEmpty then .error (.other "Message ID cannot be empty")
  else if m.visibilityTimeout = 0 then
    .error (.other "Visibility timeout must be greater than 0")
  else if m.maxReceiveCount = 0 then
    .error (.other "Max receive count must be greater than 0")
  else if maxMessageSize < (text m).utf8ByteSize then
    .error (.messageTooLarge (text m).utf8ByteSize maxMessageSize)
  else .ok ()

/-- `timestamp_millis`. -/
def millis (now : ℤ) : ℤ := now / 1000000

/-- The score in the queue; a `f64` holds it exactly. -/
def score (m : QueueMessage π) : ℤ := m.priority.value * 1000000 + millis m.visibleAt

end QueueMessage

/-! ## Redis -/

/-- A sorted set: its members and their scores. -/
abbrev ZSet (π : Type) := List (QueueMessage π × ℤ)

namespace ZSet

variable [DecidableEq π]

def zadd (z : ZSet π) (m : QueueMessage π) (score : ℤ) : ZSet π :=
  z.filter (·.1 ≠ m) ++ [(m, score)]

def zrem (z : ZSet π) (m : QueueMessage π) : ZSet π := z.filter (·.1 ≠ m)

/-- By score, and members of one score by their text. -/
def order (text : QueueMessage π → String) (a b : QueueMessage π × ℤ) : Bool :=
  a.2 < b.2 || (a.2 = b.2 && text a.1 ≤ text b.1)

/-- `ZRANGE 0 -1`. -/
def zrange (text : QueueMessage π → String) (z : ZSet π) : List (QueueMessage π) :=
  (z.insertionSort fun a b => order text a b = true).map (·.1)

/-- `ZRANGEBYSCORE -inf max LIMIT 0 limit`. -/
def zrangebyscore (text : QueueMessage π → String) (z : ZSet π) (max : ℤ) (limit : ℕ) :
    List (QueueMessage π) :=
  (zrange text (z.filter (·.2 ≤ max))).take limit

end ZSet

inductive Place where
  | queue | processing | deadLetter
deriving DecidableEq, Repr

/-- A command that changes a set; the clock is read before it is sent. -/
inductive Cmd (π : Type) where
  | remove (place : Place) (m : QueueMessage π)
  | enqueue (m : QueueMessage π)
  | process (m : QueueMessage π)
  | bury (m : QueueMessage π)
  | requeue (m : QueueMessage π) (delaySeconds : Option ℕ)
deriving DecidableEq

namespace Cmd

/-- The set that the command changes. -/
def place : Cmd π → Place
  | .remove place _ => place
  | .enqueue _ | .requeue _ _ => .queue
  | .process _ => .processing
  | .bury _ => .deadLetter

/-- The message that it is about. -/
def message : Cmd π → QueueMessage π
  | .remove _ m | .enqueue m | .process m | .bury m | .requeue m _ => m

def id (c : Cmd π) : String := c.message.id

def isRemove : Cmd π → Bool
  | .remove _ _ => true
  | _ => false

/-- The member that it adds. -/
def member (now : ℤ) : Cmd π → QueueMessage π
  | .requeue m delaySeconds => m.resetForRetry now delaySeconds
  | c => c.message

/-- The score it adds the member with; what is processed is scored in seconds. -/
def score (now : ℤ) : Cmd π → ℤ
  | .process m => now / 1000000000 + m.visibilityTimeout
  | .bury _ => QueueMessage.millis now
  | c => (c.member now).score

def exec [DecidableEq π] (now : ℤ) (c : Cmd π) (z : ZSet π) : ZSet π :=
  if c.isRemove then z.zrem c.message else z.zadd (c.member now) (c.score now)

end Cmd

/-! ## The clients -/

inductive Op (π : Type) where
  | enqueue (m : QueueMessage π)
  | enqueueBatch (ms : List (QueueMessage π))
  | dequeue
  | dequeueBatch (maxMessages : ℕ)
  | ack (id : String)
  | nack (id : String) (delaySeconds : Option ℕ)
  | delete (id : String)
  /-- `delete` has not found the message in processing. -/
  | deleteQueued (id : String)

inductive Kind where
  | enqueue (batch : Bool)
  | dequeue (batch : Bool)
  | nack
  /-- `ack` and `delete`. -/
  | settle
deriving DecidableEq, Repr

/-- What a client is to do after it has found its messages. -/
structure Job (π : Type) where
  kind : Kind
  found : List (QueueMessage π)
  cmds : List (Cmd π)
  /-- A command has failed; only a pipeline tells. -/
  failed : Bool

inductive Answer (π : Type) where
  | enqueued (ids : List String)
  | dequeued (ms : List (QueueMessage π))
  | done (b : Bool)
  | error (e : QueueError)

inductive Client (π : Type) where
  /-- It is to read a set. -/
  | asked (op : Op π)
  | working (job : Job π)
  | answered (answer : Answer π)
  | stopped

structure World (π : Type) where
  sets : Place → ZSet π
  clients : ℕ → Option (Client π)
  clock : ℤ

inductive Act (π : Type) where
  | call (i : ℕ) (op : Op π)
  /-- The read is answered, or fails; the clock was read at `now` or before. -/
  | read (i : ℕ) (now : ℤ) (error : Option String)
  /-- The next command is executed, or fails. -/
  | exec (i : ℕ) (now : ℤ) (ok : Bool)
  | finish (i : ℕ) (error : String)
  | stop (i : ℕ)
  | elapse (nanos : ℕ)

namespace World

def init (now : ℤ) : World π := ⟨fun _ => [], fun _ => none, now⟩

def setClient (w : World π) (i : ℕ) (c : Client π) : World π :=
  { w with clients := Function.update w.clients i (some c) }

/-- The messages that the read of an operation finds. -/
def finds (text : QueueMessage π → String) (w : World π) (now : ℤ) :
    Op π → List (QueueMessage π)
  | .dequeue => (w.sets .queue).zrangebyscore text (QueueMessage.millis (min now w.clock)) 1
  | .dequeueBatch maxMessages =>
    (w.sets .queue).zrangebyscore text (QueueMessage.millis (min now w.clock)) maxMessages
  | .ack id | .nack id _ | .delete id =>
    (((w.sets .processing).zrange text).find? fun m => m.id = id).toList
  | .deleteQueued id => (((w.sets .queue).zrange text).find? fun m => m.id = id).toList
  | .enqueue _ | .enqueueBatch _ => []

end World

namespace Op

def kind : Op π → Kind
  | .enqueue _ => .enqueue false
  | .enqueueBatch _ => .enqueue true
  | .dequeue => .dequeue false
  | .dequeueBatch _ => .dequeue true
  | .nack _ _ => .nack
  | .ack _ | .delete _ | .deleteQueued _ => .settle

/-- The messages that an operation hands in. -/
def given : Op π → List (QueueMessage π)
  | .enqueue m => [m]
  | .enqueueBatch ms => ms
  | _ => []

/-- The commands for a message that is handed in or found. -/
def cmds (op : Op π) (m : QueueMessage π) : List (Cmd π) :=
  match op with
  | .enqueue _ | .enqueueBatch _ => [.enqueue m]
  | .dequeue | .dequeueBatch _ => [.remove .queue m, .process m]
  | .ack _ | .delete _ => [.remove .processing m]
  | .deleteQueued _ => [.remove .queue m]
  | .nack _ delaySeconds =>
    [.remove .processing m, if m.shouldDeadLetter then .bury m else .requeue m delaySeconds]

def job (op : Op π) (ms : List (QueueMessage π)) : Job π := ⟨op.kind, ms, ms.flatMap op.cmds, false⟩

/-- Where a client is when its read has found nothing. -/
def missed : Op π → Client π
  | .dequeue | .dequeueBatch _ => .answered (.dequeued [])
  | .delete id => .asked (.deleteQueued id)
  | _ => .answered (.done false)

/-- Where a client is when its read has failed: `delete` goes on to the queue. -/
def unread (e : String) : Op π → Client π
  | .delete id => .asked (.deleteQueued id)
  | _ => .answered (.error (.redisOperation e))

end Op

/-- What a client answers when its commands have been executed. -/
def Job.answer (job : Job π) (e : String) : Answer π :=
  match job.kind with
  | .enqueue batch =>
    if batch && job.failed then .error (.redisOperation e) else .enqueued (job.found.map (·.id))
  | .dequeue batch =>
    if batch && job.failed then .error (.redisOperation e) else .dequeued job.found
  | .nack | .settle => .done true

namespace World

variable [DecidableEq π] (text : QueueMessage π → String)

/-- One step; what cannot happen leaves everything as it is. -/
def step (w : World π) : Act π → World π
  | .call i op =>
    match w.clients i with
    | none =>
      match op with
      | .enqueue _ | .enqueueBatch _ =>
        -- All messages are checked before any command is sent.
        match op.given.mapM (·.check text) with
        | .ok _ => w.setClient i (.working (op.job op.given))
        | .error e => w.setClient i (.answered (.error e))
      | _ => w.setClient i (.asked op)
    | some _ => w
  | .read i now error =>
    match w.clients i with
    | some (.asked op) =>
      match error with
      | some e => w.setClient i (op.unread e)
      | none =>
        match w.finds text now op with
        | [] => w.setClient i op.missed
        | m :: ms => w.setClient i (.working (op.job (m :: ms)))
    | _ => w
  | .exec i now ok =>
    match w.clients i with
    | some (.working job) =>
      match job.cmds with
      | [] => w
      | c :: rest =>
        let sets := if ok then
            Function.update w.sets c.place (c.exec (min now w.clock) (w.sets c.place))
          else w.sets
        { w with sets := sets }.setClient i
          (.working { job with cmds := rest, failed := job.failed || !ok })
    | _ => w
  | .finish i e =>
    match w.clients i with
    | some (.working job) =>
      if job.cmds.isEmpty then w.setClient i (.answered (job.answer e)) else w
    | _ => w
  | .stop i =>
    match w.clients i with
    | some _ => w.setClient i .stopped
    | none => w
  | .elapse nanos => { w with clock := w.clock + nanos }

end World

end Backbone.Queue.Redis
