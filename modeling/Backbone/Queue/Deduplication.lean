import Mathlib.Data.List.AList

/-!
# The exactly-once storage of the deduplicator

`MemoryExactlyOnceStorage` keeps a record of each processing and, for each deduplication key, the ids of
its processings. A processing id is a fresh UUID: here it is the number of the call that made it. Times
are nanoseconds since the epoch.

The fields that no decision reads (the ids of the message and of the processor, the completion time, the
retry count and the error text) are left out.

Reference: `backbone-queue/src/deduplication.rs`.
-/

namespace Backbone.Queue

inductive DeduplicationStrategy where
  | none
  | messageId
  | content
  | both
deriving DecidableEq, Repr

/-- `DeduplicationConfig`, what the exactly-once calls read of it. A window beyond the range of `chrono`
is left out: a cleanup panics on it before it reaches the storage. -/
structure DeduplicationConfig where
  strategy : DeduplicationStrategy
  enableExactlyOnce : Bool
  exactlyOnceWindowSeconds : ℕ
deriving DecidableEq, Repr

/-- `QueueMessage`, what a deduplication key is made of. -/
structure DedupMessage (π : Type) where
  messageDeduplicationId : Option String
  payload : π

inductive DedupError where
  | configError (message : String)
  | other (message : String)
deriving DecidableEq, Repr

/-- `get_deduplication_key`, over `generate_content_hash`. -/
def getDeduplicationKey {π : Type} (generateContentHash : π → String)
    (strategy : DeduplicationStrategy) (m : DedupMessage π) : Except DedupError String :=
  match strategy with
  | .messageId | .both =>
    match m.messageDeduplicationId with
    | some id => .ok id
    | none => .error (.configError "Message deduplication ID required for this strategy")
  | .content => .ok (generateContentHash m.payload)
  | .none => .error (.configError "Cannot generate deduplication key for None strategy")

inductive ProcessingResult where
  | success
  | failed
  | permanentlyFailed
  | inProgress
deriving DecidableEq, Repr

structure ExactlyOnceRecord where
  deduplicationKey : String
  startedAt : ℤ
  result : ProcessingResult
deriving DecidableEq, Repr

abbrev Records := AList fun _ : ℕ => ExactlyOnceRecord

/-- The ids of the processings of each key. -/
abbrev KeyIndex := AList fun _ : String => List ℕ

structure MemoryExactlyOnceStorage where
  records : Records
  keyIndex : KeyIndex
deriving DecidableEq

/-- `entry(key).or_insert_with(Vec::new).push(id)`. -/
def KeyIndex.push (index : KeyIndex) (key : String) (id : ℕ) : KeyIndex :=
  index.insert key ((index.lookup key).getD [] ++ [id])

namespace MemoryExactlyOnceStorage

variable (s : MemoryExactlyOnceStorage) (id : ℕ) (id' : ℕ) (r : ExactlyOnceRecord) (olderThan : ℤ)
  (r : ExactlyOnceRecord) (key : String) (result : ProcessingResult)

def new : MemoryExactlyOnceStorage := ⟨∅, ∅⟩

def storeRecord (id : ℕ) (r : ExactlyOnceRecord) : MemoryExactlyOnceStorage :=
  ⟨s.records.insert id r, KeyIndex.push s.keyIndex r.deduplicationKey id⟩

def getRecord (id : ℕ) : Option ExactlyOnceRecord := s.records.lookup id

def updateRecord (id : ℕ) (r : ExactlyOnceRecord) : MemoryExactlyOnceStorage :=
  { s with records := s.records.insert id r }

/-- `is_processing`: some processing of the key is recorded as in progress. -/
def isProcessing (key : String) : Bool :=
  ((s.keyIndex.lookup key).getD []).any fun id =>
    (s.records.lookup id).any fun r => r.result == .inProgress

def markCompleted (id : ℕ) (result : ProcessingResult) : MemoryExactlyOnceStorage :=
  match s.records.lookup id with
  | some r => { s with records := s.records.insert id { r with result := result } }
  | none => s

/-- The index of the records, anew. -/
def rebuild (records : Records) : KeyIndex :=
  records.entries.foldl (fun index e => KeyIndex.push index e.2.deduplicationKey e.1) ∅

/-- `cleanup_old_records`: the records started later stay, whatever their result. -/
def cleanupOldRecords (olderThan : ℤ) : MemoryExactlyOnceStorage :=
  let records : Records :=
    ⟨s.records.entries.filter fun e => decide (olderThan < e.2.startedAt),
      s.records.nodupKeys.sublist List.filter_sublist⟩
  ⟨records, rebuild records⟩

/-! ## What the methods do -/

/-- The processings filed under a key. -/
def idsOf (key : String) : List ℕ := (s.keyIndex.lookup key).getD []

theorem isProcessing_iff {key : String} :
    s.isProcessing key = true ↔
      ∃ id ∈ s.idsOf key, ∃ r, s.getRecord id = some r ∧ r.result = .inProgress := by
  simp [isProcessing, idsOf, getRecord, Option.any_eq_true]

theorem getD_push (index : KeyIndex) (key key' : String) (id : ℕ) :
    ((KeyIndex.push index key id).lookup key').getD [] =
      (index.lookup key').getD [] ++ if key' = key then [id] else [] := by
  rw [KeyIndex.push]
  by_cases h : key' = key
  · subst h
    simp
  · rw [AList.lookup_insert_ne h, if_neg h, List.append_nil]

theorem getRecord_storeRecord :
    (s.storeRecord id r).getRecord id' = if id' = id then some r else s.getRecord id' := by
  by_cases h : id' = id
  · subst h
    simp [storeRecord, getRecord]
  · rw [if_neg h]
    exact AList.lookup_insert_ne h

theorem idsOf_storeRecord :
    (s.storeRecord id r).idsOf key = s.idsOf key ++ if key = r.deduplicationKey then [id] else [] :=
  getD_push ..

theorem getRecord_updateRecord :
    (s.updateRecord id r).getRecord id' = if id' = id then some r else s.getRecord id' := by
  by_cases h : id' = id
  · subst h
    simp [updateRecord, getRecord]
  · rw [if_neg h]
    exact AList.lookup_insert_ne h

@[simp] theorem idsOf_updateRecord :
    (s.updateRecord id r).idsOf key = s.idsOf key := rfl

theorem getRecord_markCompleted :
    (s.markCompleted id result).getRecord id' =
      if id' = id then (s.getRecord id).map fun r => { r with result := result }
      else s.getRecord id' := by
  unfold markCompleted
  cases h : s.records.lookup id with
  | none =>
    by_cases hid : id' = id
    · subst hid
      simp [getRecord, h]
    · rw [if_neg hid]
  | some r =>
    by_cases hid : id' = id
    · subst hid
      simp [getRecord, h]
    · rw [if_neg hid]
      exact AList.lookup_insert_ne hid

@[simp] theorem idsOf_markCompleted (key : String) :
    (s.markCompleted id result).idsOf key = s.idsOf key := by
  unfold markCompleted
  split <;> rfl

/-- A record stays exactly when it was started later. -/
theorem getRecord_cleanupOldRecords (id : ℕ) (r : ExactlyOnceRecord) :
    (s.cleanupOldRecords olderThan).getRecord id = some r ↔
      s.getRecord id = some r ∧ olderThan < r.startedAt := by
  rw [getRecord, getRecord]
  rw [← Option.mem_def, ← Option.mem_def, AList.mem_lookup_iff, AList.mem_lookup_iff]
  simp [cleanupOldRecords]

theorem mem_foldl_push (l : List (Sigma fun _ : ℕ => ExactlyOnceRecord)) (index : KeyIndex)
    (key : String) (id : ℕ) :
    id ∈ ((l.foldl (fun index e => KeyIndex.push index e.2.deduplicationKey e.1) index).lookup
        key).getD [] ↔
      id ∈ (index.lookup key).getD [] ∨ ∃ e ∈ l, e.1 = id ∧ e.2.deduplicationKey = key := by
  induction l generalizing index with
  | nil => simp
  | cons e l ih =>
    rw [List.foldl_cons, ih, getD_push, List.mem_append, or_assoc]
    refine or_congr Iff.rfl ?_
    rw [List.exists_mem_cons_iff]
    refine or_congr ?_ Iff.rfl
    by_cases hkey : key = e.2.deduplicationKey
    · simp [hkey, eq_comm]
    · simp [hkey, Ne.symm hkey]

/-- Behind a cleanup the ids of a key are those of its records. -/
theorem mem_idsOf_cleanupOldRecords (id : ℕ) :
    id ∈ (s.cleanupOldRecords olderThan).idsOf key ↔
      ∃ r, (s.cleanupOldRecords olderThan).getRecord id = some r ∧ r.deduplicationKey = key := by
  rw [idsOf]
  refine (mem_foldl_push ..).trans ?_
  constructor
  · rintro (h | ⟨e, he, rfl, hkey⟩)
    · simp at h
    · exact ⟨e.2, AList.mem_lookup_iff.mpr he, hkey⟩
  · rintro ⟨r, hr, hkey⟩
    exact .inr ⟨⟨id, r⟩, AList.mem_lookup_iff.mp hr, rfl, hkey⟩

end MemoryExactlyOnceStorage

end Backbone.Queue
