import Backbone.Lib.RwLock
import Backbone.Queue.Deduplication

/-!
# The locks of the deduplicator and of the batching processor

Each method as a program over the locks it takes: `stats` of the deduplicator, `entries` of its cache,
`records` and `keyIndex` of its exactly-once storage, and `pending` and `batchStats` of the batching
processor. A point is named after what the method does there; the guards are dropped at the `drop`
points, in the order in which they leave their scopes.

`is_duplicate` keeps its guard of `stats` while `is_key_duplicate` asks for another one, `add_to_batch`
keeps its guard of `pending` while `process_batch_if_ready` asks for another one, and `is_processing`
takes `keyIndex` before `records` where `store_record` and `cleanup_old_records` take `records` first.

What is processed, and what is in the cache, has no part in which locks are taken and is left out; of
the pending messages only their number is kept. Calls that return before they take a lock are left out.

Reference: `backbone-queue/src/deduplication.rs` and `backbone-queue/src/processor.rs`.
-/

namespace Backbone.Queue.Locks

open Machine RwLock

inductive LockName where
  | stats
  | entries
  | records
  | keyIndex
  | pending
  | batchStats
deriving DecidableEq, Repr

/-- `DeduplicationConfig` and `BatchConfig`, what decides which locks are taken. -/
structure Config where
  strategy : DeduplicationStrategy
  enableExactlyOnce : Bool
  maxBatchSize : ℕ
  minBatchSize : ℕ

/-- The data the locks guard, as far as it decides which locks are taken. -/
structure Data where
  storage : MemoryExactlyOnceStorage
  pending : ℕ

def Data.new : Data := ⟨.new, 0⟩

/-- How many keys `is_duplicate` checks of a message with or without a deduplication id. -/
def keysToCheck (strategy : DeduplicationStrategy) (hasId : Bool) : ℕ :=
  match strategy with
  | .none => 0
  | .messageId => if hasId then 1 else 0
  | .content => 1
  | .both => (if hasId then 1 else 0) + 1

/-- Where a call is. -/
inductive Point where
  -- `is_duplicate` and `is_key_duplicate`, with the keys that are left to check
  | isDuplicate (hasId : Bool)
  | checkKeys (keys : ℕ)
  | containsKey (keys : ℕ)
  | countKey (keys : ℕ)
  | dropCounted (keys : ℕ)
  -- `record_message`
  | recordMessage
  | dropEntries
  -- `start_processing`: `is_processing` and `store_record`
  | startProcessing (id : ℕ) (r : ExactlyOnceRecord)
  | lookUp (id : ℕ) (r : ExactlyOnceRecord)
  | askRecords (id : ℕ) (r : ExactlyOnceRecord)
  | scan (id : ℕ) (r : ExactlyOnceRecord)
  | dropScanned (id : ℕ) (r : ExactlyOnceRecord) (found : Bool)
  | dropLookedUp (id : ℕ) (r : ExactlyOnceRecord) (found : Bool)
  | countPrevented
  | storeRecord (id : ℕ) (r : ExactlyOnceRecord)
  | storeIndex (id : ℕ) (r : ExactlyOnceRecord)
  | store (id : ℕ) (r : ExactlyOnceRecord)
  | dropStoreIndex
  | dropStoreRecords
  -- `complete_processing`: `get_record`, `update_record` and `mark_completed`
  | completeProcessing (id : ℕ) (result : ProcessingResult)
  | getRecord (id : ℕ) (result : ProcessingResult)
  | dropGot (id : ℕ) (result : ProcessingResult) (copy : Option ExactlyOnceRecord)
  | updateRecord (id : ℕ) (r : ExactlyOnceRecord)
  | update (id : ℕ) (r : ExactlyOnceRecord)
  | dropUpdated (id : ℕ) (result : ProcessingResult)
  | markCompleted (id : ℕ) (result : ProcessingResult)
  | mark (id : ℕ) (result : ProcessingResult)
  | dropMarked
  | countCompleted
  -- `get_stats`
  | getStats
  | cacheSize
  | dropSize
  -- `cleanup_expired` and `cleanup_old_records`
  | cleanupExpired (cutoff : ℤ)
  | dropExpired (cutoff : ℤ)
  | cleanupOldRecords (cutoff : ℤ)
  | cleanIndex (cutoff : ℤ)
  | clean (cutoff : ℤ)
  | dropCleanIndex
  | dropCleanRecords
  | countCleaned
  | dropStats
  -- `add_to_batch` and `process_batch_if_ready`
  | addToBatch
  | push
  | processBatch
  | drainIfReady
  | dropDrained
  | countBatch
  | dropBatchStats
  | dropNotReady
  | dropPending
  -- `flush_batch`
  | flushBatch
  | flush
  -- the loop of `start_background_processor`
  | background
  | size
  | dropSized (ready : Bool)
  | drainReady
  | drain
  | dropDrain
  | done
deriving DecidableEq

/-- What a call does at a point. -/
def instr (cfg : Config) : Point → Instr LockName Data Point
  | .isDuplicate hasId => .acquire .stats .write (.checkKeys (keysToCheck cfg.strategy hasId))
  | .checkKeys 0 => .release .stats .done
  | .checkKeys (keys + 1) => .acquire .entries .read (.containsKey keys)
  | .containsKey keys => .release .entries (.countKey keys)
  | .countKey keys => .acquire .stats .write (.dropCounted keys)
  | .dropCounted keys => .release .stats (.checkKeys keys)
  | .recordMessage => .acquire .entries .write .dropEntries
  | .dropEntries => .release .entries .done
  | .startProcessing id r => .acquire .keyIndex .read (.lookUp id r)
  | .lookUp id r =>
    .access fun s =>
      (s, if (s.storage.keyIndex.lookup r.deduplicationKey).isSome then .askRecords id r
        else .dropLookedUp id r false)
  | .askRecords id r => .acquire .records .read (.scan id r)
  | .scan id r =>
    .access fun s => (s, .dropScanned id r (s.storage.isProcessing r.deduplicationKey))
  | .dropScanned id r found => .release .records (.dropLookedUp id r found)
  | .dropLookedUp id r found =>
    .release .keyIndex (if found then .countPrevented else .storeRecord id r)
  | .countPrevented => .acquire .stats .write .dropStats
  | .storeRecord id r => .acquire .records .write (.storeIndex id r)
  | .storeIndex id r => .acquire .keyIndex .write (.store id r)
  | .store id r =>
    .access fun s => ({ s with storage := s.storage.storeRecord id r }, .dropStoreIndex)
  | .dropStoreIndex => .release .keyIndex .dropStoreRecords
  | .dropStoreRecords => .release .records .done
  | .completeProcessing id result => .acquire .records .read (.getRecord id result)
  | .getRecord id result => .access fun s => (s, .dropGot id result (s.storage.getRecord id))
  | .dropGot id result (some copy) =>
    .release .records (.updateRecord id { copy with result := result })
  | .dropGot id result none => .release .records (.markCompleted id result)
  | .updateRecord id r => .acquire .records .write (.update id r)
  | .update id r =>
    .access fun s => ({ s with storage := s.storage.updateRecord id r }, .dropUpdated id r.result)
  | .dropUpdated id result => .release .records (.markCompleted id result)
  | .markCompleted id result => .acquire .records .write (.mark id result)
  | .mark id result =>
    .access fun s => ({ s with storage := s.storage.markCompleted id result }, .dropMarked)
  | .dropMarked => .release .records .countCompleted
  | .countCompleted => .acquire .stats .write .dropStats
  | .getStats => .acquire .stats .write .cacheSize
  | .cacheSize => .acquire .entries .read .dropSize
  | .dropSize => .release .entries .dropStats
  | .cleanupExpired cutoff => .acquire .entries .write (.dropExpired cutoff)
  | .dropExpired cutoff =>
    .release .entries (if cfg.enableExactlyOnce then .cleanupOldRecords cutoff else .countCleaned)
  | .cleanupOldRecords cutoff => .acquire .records .write (.cleanIndex cutoff)
  | .cleanIndex cutoff => .acquire .keyIndex .write (.clean cutoff)
  | .clean cutoff =>
    .access fun s => ({ s with storage := s.storage.cleanupOldRecords cutoff }, .dropCleanIndex)
  | .dropCleanIndex => .release .keyIndex .dropCleanRecords
  | .dropCleanRecords => .release .records .countCleaned
  | .countCleaned => .acquire .stats .write .dropStats
  | .dropStats => .release .stats .done
  | .addToBatch => .acquire .pending .write .push
  | .push =>
    .access fun s =>
      ({ s with pending := s.pending + 1 },
        if cfg.maxBatchSize ≤ s.pending + 1 then .processBatch else .dropPending)
  | .processBatch => .acquire .pending .write .drainIfReady
  | .drainIfReady =>
    .access fun s =>
      if cfg.minBatchSize ≤ s.pending then ({ s with pending := 0 }, .dropDrained)
      else (s, .dropNotReady)
  | .dropDrained => .release .pending .countBatch
  | .countBatch => .acquire .batchStats .write .dropBatchStats
  | .dropBatchStats => .release .batchStats .dropPending
  | .dropNotReady => .release .pending .dropPending
  | .dropPending => .release .pending .done
  | .flushBatch => .acquire .pending .write .flush
  | .flush => .access fun s => ({ s with pending := 0 }, .dropPending)
  | .background => .acquire .pending .read .size
  | .size => .access fun s => (s, .dropSized (decide (cfg.minBatchSize ≤ s.pending)))
  | .dropSized ready => .release .pending (if ready then .drainReady else .background)
  | .drainReady => .acquire .pending .write .drain
  | .drain => .access fun s => ({ s with pending := 0 }, .dropDrain)
  | .dropDrain => .release .pending .background
  | .done => .stop

/-- The guards a call holds at a point. -/
def holds : Point → List LockName
  | .checkKeys _ | .countKey _ | .cacheSize | .dropStats => [.stats]
  | .containsKey _ | .dropSize => [.entries, .stats]
  | .dropCounted _ => [.stats, .stats]
  | .dropEntries | .dropExpired _ => [.entries]
  | .lookUp _ _ | .askRecords _ _ | .dropLookedUp _ _ _ => [.keyIndex]
  | .scan _ _ | .dropScanned _ _ _ => [.records, .keyIndex]
  | .storeIndex _ _ | .cleanIndex _ | .dropStoreRecords | .dropCleanRecords | .getRecord _ _
  | .dropGot _ _ _ | .update _ _ | .dropUpdated _ _ | .mark _ _ | .dropMarked => [.records]
  | .store _ _ | .clean _ | .dropStoreIndex | .dropCleanIndex => [.keyIndex, .records]
  | .push | .processBatch | .countBatch | .dropPending | .flush | .size | .dropSized _ | .drain
  | .dropDrain => [.pending]
  | .drainIfReady | .dropDrained | .dropNotReady => [.pending, .pending]
  | .dropBatchStats => [.batchStats, .pending]
  | .isDuplicate _ | .recordMessage | .startProcessing _ _ | .countPrevented | .storeRecord _ _
  | .completeProcessing _ _ | .updateRecord _ _ | .markCompleted _ _ | .countCompleted | .getStats
  | .cleanupExpired _ | .cleanupOldRecords _ | .countCleaned | .addToBatch | .flushBatch
  | .background | .drainReady | .done => []

/-- The calls of the two objects. -/
def entry (cfg : Config) : Point → Prop
  | .isDuplicate _ | .recordMessage | .getStats | .cleanupExpired _ | .addToBatch | .flushBatch
  | .background => True
  | .startProcessing _ _ | .completeProcessing _ _ => cfg.enableExactlyOnce = true
  | _ => False

instance (cfg : Config) : DecidablePred (entry cfg) := fun t => by
  cases t <;> unfold entry <;> infer_instance

theorem wellLocked (cfg : Config) (t : Point) : (instr cfg t).WellLocked holds t := by
  cases t with
  | checkKeys keys => cases keys <;> rfl
  | dropGot id result copy => cases copy <;> rfl
  | dropLookedUp id r found => cases found <;> rfl
  | dropSized ready => cases ready <;> rfl
  | dropExpired cutoff =>
    show holds (.dropExpired cutoff) = .entries :: holds (if _ then _ else _)
    split <;> rfl
  | lookUp id r =>
    intro s
    show holds (if _ then _ else _) = _
    split <;> rfl
  | push =>
    intro s
    show holds (if _ then _ else _) = _
    split <;> rfl
  | drainIfReady =>
    intro s
    dsimp only
    split <;> rfl
  | _ => first | rfl | exact fun _ => rfl

def program (cfg : Config) : Program LockName Data Point :=
  ⟨instr cfg, holds, entry cfg, wellLocked cfg⟩

instance (cfg : Config) : DecidablePred (program cfg).entry :=
  inferInstanceAs (DecidablePred (entry cfg))

end Backbone.Queue.Locks
