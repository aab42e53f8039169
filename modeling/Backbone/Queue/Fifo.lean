import Mathlib.Algebra.Group.Int.Defs
import Mathlib.Data.List.AList
import Mathlib.Data.List.Rotate
import Mathlib.Data.List.Sort
import Mathlib.Data.String.Basic
import Backbone.Lib.Run

/-!
# The FIFO queue wrapper

`FifoQueueServiceWrapper` keeps message groups in one inner queue. A message is stamped with its group
and a sequence number when it is enqueued; `dequeue_from_group` takes messages from the head of the
queue and puts those of other groups back at its tail.

The inner queue is an exact FIFO queue, a list with the oldest message first, that never fails. The
hash function of the standard library and the rendering of a payload as JSON are parameters. The group
statistics, which no decision reads, are left out.

Reference: `backbone-queue/src/fifo.rs`.
-/

namespace Backbone.Queue.Fifo

variable {π : Type}

/-- `QueueMessage`, what the wrapper reads and writes of it. -/
structure QueueMessage (π : Type) where
  id : String
  payload : π
  attributes : AList fun _ : String => String
  messageGroupId : Option String
  messageDeduplicationId : Option String

inductive QueueError where
  | configError (message : String)
  | other (message : String)
deriving DecidableEq, Repr

/-- `FifoQueueConfig`, what enqueueing and dequeueing read of it. -/
structure FifoQueueConfig where
  enabled : Bool
  enableContentDeduplication : Bool

/-- `DefaultHasher` on strings, and `serde_json::to_string`. -/
structure Hasher (π : Type) where
  hash : String → UInt64
  render : π → String

/-- The wrapper: the inner queue and the two caches of `FifoQueueStats`. -/
structure Wrapper (π : Type) where
  queue : List (QueueMessage π)
  deduplicationCache : AList fun _ : String => ℤ
  contentDeduplicationCache : AList fun _ : String => ℤ

/-- `FifoQueueServiceWrapper::new` over an empty queue. -/
def Wrapper.new (π : Type) : Wrapper π := ⟨[], ∅, ∅⟩

/-! ## Enqueueing -/

/-- Lower-case hexadecimal digits. -/
def hex (n : UInt64) : String := String.ofList (Nat.toDigits 16 n.toNat)

/-- `generate_content_hash`. -/
def generateContentHash (e : Hasher π) (content : π) : String := hex (e.hash (e.render content))

/-- `validate_fifo_message`. -/
def validateFifoMessage (cfg : FifoQueueConfig) (m : QueueMessage π) : Except QueueError Unit :=
  if !cfg.enabled then .error (.configError "FIFO is disabled")
  else if m.messageGroupId.isNone then
    .error (.configError "FIFO messages must have message_group_id")
  else
    match m.messageDeduplicationId with
    | none => .error (.configError "FIFO messages must have message_deduplication_id")
    | some id =>
      if id.isEmpty then .error (.configError "message_deduplication_id cannot be empty")
      else if 128 < id.utf8ByteSize then
        .error (.configError "message_deduplication_id cannot exceed 128 characters")
      else .ok ()

/-- `Utc::now().timestamp_nanos_opt().unwrap_or(0) as u64`, of a clock that shows `now` nanoseconds
since the epoch. -/
def timestamp (now : ℤ) : UInt64 :=
  if -2 ^ 63 ≤ now ∧ now < 2 ^ 63 then .ofInt now else 0

/-- `generate_sequence_number`: the addition wraps. -/
def generateSequenceNumber (e : Hasher π) (now : ℤ) (group : String) : UInt64 :=
  timestamp now + e.hash group

/-- `is_message_duplicated`. -/
def Wrapper.isMessageDuplicated (s : Wrapper π) (id : String) : Bool :=
  (s.deduplicationCache.lookup id).isSome

/-- `is_content_duplicated`. It hashes what it is given once more. -/
def Wrapper.isContentDuplicated (s : Wrapper π) (e : Hasher π) (content : String) : Bool :=
  (s.contentDeduplicationCache.lookup (hex (e.hash content))).isSome

/-- `message_group_id.as_ref().unwrap()`, of a validated message. -/
def QueueMessage.group (m : QueueMessage π) : String := m.messageGroupId.getD ""

/-- The message as it is given to the inner queue. -/
def withFifoMetadata (e : Hasher π) (cfg : FifoQueueConfig) (m : QueueMessage π) (now : ℤ) :
    QueueMessage π :=
  let attributes :=
    if cfg.enableContentDeduplication then
      m.attributes.insert "content_hash" (generateContentHash e m.payload)
    else m.attributes
  { m with
      attributes :=
        ((attributes.insert "fifo_sequence"
            (toString (generateSequenceNumber e now m.group).toNat)).insert "fifo_group"
            m.group).insert "fifo_deduplication_id" (m.messageDeduplicationId.getD "") }

/-- `enqueue_fifo`, with the reading of the clock. -/
def enqueueFifo (e : Hasher π) (cfg : FifoQueueConfig) (s : Wrapper π) (m : QueueMessage π)
    (now : ℤ) : Except QueueError String × Wrapper π :=
  match validateFifoMessage cfg m with
  | .error err => (.error err, s)
  | .ok () =>
    let id := m.messageDeduplicationId.getD ""
    if s.isMessageDuplicated id then
      (.error (.other s!"Message with deduplication ID {id} already exists"), s)
    else if cfg.enableContentDeduplication && s.isContentDuplicated e (generateContentHash e m.payload)
    then (.error (.other "Message with identical content already exists"), s)
    else
      (.ok m.id,
        { s with
            queue := s.queue ++ [withFifoMetadata e cfg m now]
            deduplicationCache := s.deduplicationCache.insert id now })

/-- The loop of `enqueue_fifo_batch`. The clock is read anew for each message. -/
def enqueueAll (e : Hasher π) (cfg : FifoQueueConfig) (clock : ℕ → ℤ) :
    ℕ → Wrapper π → List (QueueMessage π) → Except QueueError (List String) × Wrapper π
  | _, s, [] => (.ok [], s)
  | k, s, m :: ms =>
    match enqueueFifo e cfg s m (clock k) with
    | (.error err, s) => (.error err, s)
    | (.ok id, s) =>
      match enqueueAll e cfg clock (k + 1) s ms with
      | (.error err, s) => (.error err, s)
      | (.ok ids, s) => (.ok (id :: ids), s)

/-- `sort_by` on the groups. The sort is stable. -/
def sortByGroup (ms : List (QueueMessage π)) : List (QueueMessage π) :=
  ms.insertionSort fun a b => a.group ≤ b.group

/-- `enqueue_fifo_batch`. -/
def enqueueFifoBatch (e : Hasher π) (cfg : FifoQueueConfig) (s : Wrapper π)
    (ms : List (QueueMessage π)) (clock : ℕ → ℤ) : Except QueueError (List String) × Wrapper π :=
  match ms.forM (validateFifoMessage cfg) with
  | .error err => (.error err, s)
  | .ok () => enqueueAll e cfg clock 0 s (sortByGroup ms)

/-! ## Dequeueing -/

def QueueMessage.fifoGroup (m : QueueMessage π) : Option String := m.attributes.lookup "fifo_group"

/-- The loop of `dequeue_from_group`, with the attempts it has left. -/
def dequeueLoop (group : String) : ℕ → List (QueueMessage π) →
    Option (QueueMessage π) × List (QueueMessage π)
  | 0, q => (none, q)
  | _ + 1, [] => (none, [])
  | attempts + 1, m :: q =>
    match m.fifoGroup with
    | some g => if g = group then (some m, q) else dequeueLoop group attempts (q ++ [m])
    -- The message is not put back.
    | none => (none, q)

def maxAttempts : ℕ := 50

/-- `dequeue_from_group`. -/
def dequeueFromGroup (s : Wrapper π) (group : String) : Option (QueueMessage π) × Wrapper π :=
  let (m, q) := dequeueLoop group maxAttempts s.queue
  (m, { s with queue := q })

/-- A call of the wrapper, with the readings of the clock it takes. -/
inductive Call (π : Type) where
  | enqueueFifo (m : QueueMessage π) (now : ℤ)
  | enqueueFifoBatch (ms : List (QueueMessage π)) (clock : ℕ → ℤ)
  | dequeueFromGroup (group : String)

def Wrapper.step (e : Hasher π) (cfg : FifoQueueConfig) (s : Wrapper π) : Call π → Wrapper π
  | .enqueueFifo m now => (Fifo.enqueueFifo e cfg s m now).2
  | .enqueueFifoBatch ms clock => (Fifo.enqueueFifoBatch e cfg s ms clock).2
  | .dequeueFromGroup group => (Fifo.dequeueFromGroup s group).2

/-! ## What the calls do to the queue -/

variable (e : Hasher π) (cfg : FifoQueueConfig)

@[simp] theorem fifoGroup_withFifoMetadata (m : QueueMessage π) (now : ℤ) :
    (withFifoMetadata e cfg m now).fifoGroup = some m.group := by
  rw [QueueMessage.fifoGroup, withFifoMetadata, AList.lookup_insert_ne (by decide),
    AList.lookup_insert]

theorem fifoSequence_withFifoMetadata (m : QueueMessage π) (now : ℤ) :
    (withFifoMetadata e cfg m now).attributes.lookup "fifo_sequence" =
      some (toString (generateSequenceNumber e now m.group).toNat) := by
  rw [withFifoMetadata, AList.lookup_insert_ne (by decide), AList.lookup_insert_ne (by decide),
    AList.lookup_insert]

/-- A message is enqueued, or refused and nothing changes. -/
theorem enqueueFifo_spec (s : Wrapper π)
    (m : QueueMessage π) (now : ℤ) :
    (∃ err, enqueueFifo e cfg s m now = (.error err, s)) ∨
      ∃ s', enqueueFifo e cfg s m now = (.ok m.id, s') ∧
        s'.queue = s.queue ++ [withFifoMetadata e cfg m now] := by
  unfold enqueueFifo
  cases validateFifoMessage cfg m with
  | error err => exact .inl ⟨err, rfl⟩
  | ok =>
    dsimp only
    split
    · exact .inl ⟨_, rfl⟩
    · split
      · exact .inl ⟨_, rfl⟩
      · exact .inr ⟨_, rfl, rfl⟩

/-- The id that a validated message is seen by. -/
def QueueMessage.dedupId (m : QueueMessage π) : String := m.messageDeduplicationId.getD ""

/-- A valid message is a duplicate of one that was seen. -/
def Wrapper.seen (e : Hasher π) (cfg : FifoQueueConfig) (s : Wrapper π) (m : QueueMessage π) : Bool :=
  s.isMessageDuplicated m.dedupId ||
    cfg.enableContentDeduplication && s.isContentDuplicated e (generateContentHash e m.payload)

/-- The wrapper behind a message that was enqueued. -/
def Wrapper.behind (e : Hasher π) (cfg : FifoQueueConfig) (s : Wrapper π) (m : QueueMessage π)
    (now : ℤ) : Wrapper π :=
  { s with
      queue := s.queue ++ [withFifoMetadata e cfg m now]
      deduplicationCache := s.deduplicationCache.insert m.dedupId now }

section Seen

variable {e : Hasher π} {cfg : FifoQueueConfig} {s : Wrapper π} {m : QueueMessage π}

/-- A valid message is refused when it was seen, and seen when it was enqueued. -/
theorem enqueueFifo_seen (hvalid : validateFifoMessage cfg m = .ok ()) (now : ℤ) :
    (s.seen e cfg m = true ∧ ∃ text, enqueueFifo e cfg s m now = (.error (.other text), s)) ∨
      (s.seen e cfg m = false ∧ enqueueFifo e cfg s m now = (.ok m.id, s.behind e cfg m now)) := by
  unfold enqueueFifo Wrapper.seen
  rw [hvalid]
  cases hid : s.isMessageDuplicated m.dedupId with
  | true => exact .inl ⟨rfl, _, if_pos hid⟩
  | false =>
    dsimp only
    rw [show s.isMessageDuplicated (m.messageDeduplicationId.getD "") = false from hid,
      Bool.false_or]
    cases hcontent : cfg.enableContentDeduplication &&
        s.isContentDuplicated e (generateContentHash e m.payload) with
    | true => exact .inl ⟨rfl, _, rfl⟩
    | false => exact .inr ⟨rfl, rfl⟩

end Seen

/-- The loop of a batch enqueues its first messages, up to one that is refused. -/
theorem enqueueAll_queue (clock : ℕ → ℤ) (k : ℕ)
    (s : Wrapper π) (ms : List (QueueMessage π)) :
    ∃ n, (enqueueAll e cfg clock k s ms).2.queue =
      s.queue ++ (ms.take n).mapIdx fun i m => withFifoMetadata e cfg m (clock (k + i)) := by
  induction ms generalizing k s with
  | nil => exact ⟨0, by simp [enqueueAll]⟩
  | cons m ms ih =>
    rcases enqueueFifo_spec e cfg s m (clock k) with ⟨err, h⟩ | ⟨s', h, hqueue⟩
    · exact ⟨0, by simp [enqueueAll, h]⟩
    · obtain ⟨n, hn⟩ := ih (k + 1) s'
      have hloop : (enqueueAll e cfg clock k s (m :: ms)).2 =
          (enqueueAll e cfg clock (k + 1) s' ms).2 := by
        simp only [enqueueAll, h]
        split <;> simp_all
      refine ⟨n + 1, ?_⟩
      rw [hloop, hn, hqueue, List.take_succ_cons, List.mapIdx_cons, List.append_assoc]
      simp only [Nat.add_zero, List.singleton_append]
      congr 3
      funext i m'
      rw [show k + 1 + i = k + (i + 1) by omega]

theorem enqueueFifoBatch_queue (s : Wrapper π)
    (ms : List (QueueMessage π)) (clock : ℕ → ℤ) :
    ∃ n, (enqueueFifoBatch e cfg s ms clock).2.queue =
      s.queue ++ ((sortByGroup ms).take n).mapIdx fun i m => withFifoMetadata e cfg m (clock i) := by
  unfold enqueueFifoBatch
  cases ms.forM (validateFifoMessage cfg) with
  | error err => exact ⟨0, by simp⟩
  | ok =>
    obtain ⟨n, hn⟩ := enqueueAll_queue e cfg clock 0 s (sortByGroup ms)
    exact ⟨n, by simpa using hn⟩

/-- The sort keeps the messages of a group in their order. -/
theorem filter_sortByGroup (ms : List (QueueMessage π)) (group : String) :
    (sortByGroup ms).filter (·.group = group) = ms.filter (·.group = group) := by
  have hpairwise : (ms.filter (·.group = group)).Pairwise fun a b => a.group ≤ b.group := by
    refine List.pairwise_of_forall_mem_list fun a ha b hb => ?_
    have ha' := of_decide_eq_true (List.mem_filter.mp ha).2
    have hb' := of_decide_eq_true (List.mem_filter.mp hb).2
    rw [ha', hb']
  have hsub : List.Sublist (ms.filter (·.group = group)) (sortByGroup ms) :=
    List.sublist_insertionSort hpairwise List.filter_sublist
  have hfilter := hsub.filter (·.group = group)
  rw [List.filter_filter] at hfilter
  simp only [Bool.and_self] at hfilter
  refine (hfilter.eq_of_length ?_).symm
  exact ((List.perm_insertionSort _ ms).filter _).length_eq.symm

section Loop

variable {group : String}

/-- Messages of other groups go to the tail until the first of the group is found. -/
theorem dequeueLoop_found {p r : List (QueueMessage π)} {m : QueueMessage π} {attempts : ℕ}
    (hp : ∀ a ∈ p, ∃ g, a.fifoGroup = some g ∧ g ≠ group) (hm : m.fifoGroup = some group)
    (hlt : p.length < attempts) :
    dequeueLoop group attempts (p ++ m :: r) = (some m, r ++ p) := by
  induction p generalizing r attempts with
  | nil =>
    cases attempts with
    | zero => exact absurd hlt (Nat.not_lt_zero _)
    | succ attempts => simp [dequeueLoop, hm]
  | cons a p ih =>
    cases attempts with
    | zero => exact absurd hlt (Nat.not_lt_zero _)
    | succ attempts =>
      obtain ⟨g, hg, hne⟩ := hp a List.mem_cons_self
      have hrest := ih (r := r ++ [a]) (fun b hb => hp b (List.mem_cons_of_mem _ hb))
        (Nat.lt_of_succ_lt_succ hlt)
      simpa [dequeueLoop, hg, hne] using hrest

/-- With no message of the group every attempt moves one message to the tail. -/
theorem dequeueLoop_none {q : List (QueueMessage π)}
    (hq : ∀ a ∈ q, ∃ g, a.fifoGroup = some g ∧ g ≠ group) (attempts : ℕ) :
    dequeueLoop group attempts q = (none, q.rotate attempts) := by
  induction attempts generalizing q with
  | zero => simp [dequeueLoop]
  | succ attempts ih =>
    cases q with
    | nil => simp [dequeueLoop]
    | cons a q =>
      obtain ⟨g, hg, hne⟩ := hq a List.mem_cons_self
      have hrest := ih (q := q ++ [a]) (by
        intro b hb
        rcases List.mem_append.mp hb with hb | hb
        · exact hq b (List.mem_cons_of_mem _ hb)
        · rw [List.mem_singleton.mp hb]
          exact ⟨g, hg, hne⟩)
      simpa [dequeueLoop, hg, hne, List.rotate_cons_succ] using hrest

end Loop

end Backbone.Queue.Fifo
