import Backbone.Queue.Locks

/-!
# Deadlocks of the deduplicator and of the batching processor

Two methods wait for themselves: `is_duplicate` when it checks a key, and `add_to_batch` when it fills
the batch. Two calls wait for each other when `is_processing` asks for `records` with `keyIndex` in its
hands while `store_record` or `cleanup_old_records` holds `records`, or awaits it ahead, and has not
released `keyIndex`. There are no other deadlocks: without these, the guards a waiting call holds are
below the lock it waits for, in one of two orders of `records` and `keyIndex`.

Reference: `backbone-queue/src/deduplication.rs` and `backbone-queue/src/processor.rs`.
-/

namespace Backbone.Queue.Locks

open Machine RwLock

variable {cfg : Config} {w : World LockName Data Point} {t : Point} {a : Act Point}

/-- `is_processing` has asked for `records` and holds `keyIndex`. -/
def AsksRecords (t : Point) : Prop := holds t = [.records, .keyIndex]

instance : DecidablePred AsksRecords := fun t => inferInstanceAs (Decidable (holds t = _))

/-- `store_record` or `cleanup_old_records` has asked for `records`, and has not released `keyIndex`. -/
def BeforeIndex : Point → Prop
  | .storeIndex _ _ | .cleanIndex _ => True
  | t => holds t = [.keyIndex, .records]

/-- The guard of `records` was given, and `keyIndex` is asked for. -/
def asksIndex : Point → Bool
  | .storeIndex _ _ | .cleanIndex _ => true
  | _ => false

instance : DecidablePred BeforeIndex := fun t =>
  decidable_of_iff (asksIndex t = true ∨ holds t = [.keyIndex, .records]) (by
    cases t <;> simp [BeforeIndex, asksIndex])

/-- No method is about to wait for itself or for a call that waits for it: `is_duplicate` checks no key,
`add_to_batch` does not fill the batch, and `is_processing` asks for `records` when no call is on that
lock that still wants `keyIndex`. -/
def Careful (cfg : Config) (w : World LockName Data Point) : Act Point → Prop
  | .spawn _ (.isDuplicate hasId) => keysToCheck cfg.strategy hasId = 0
  | .spawn _ _ => True
  | .run i =>
    (w.points i = some .push → w.data.pending + 1 < cfg.maxBatchSize) ∧
      w.AsksClear (program cfg) .records AsksRecords BeforeIndex (.run i)

/-- How many keys a call begins to check. -/
def keysAsked (cfg : Config) : Point → ℕ
  | .isDuplicate hasId => keysToCheck cfg.strategy hasId
  | _ => 0

instance (cfg : Config) (w : World LockName Data Point) : ∀ a, Decidable (Careful cfg w a)
  | .spawn _ t => decidable_of_iff (keysAsked cfg t = 0) (by cases t <;> simp [Careful, keysAsked])
  | .run _ => inferInstanceAs (Decidable (_ ∧ _))

/-- The points of methods that do not wait for themselves. -/
def Fine (cfg : Config) : Point → Prop
  | .isDuplicate hasId => keysToCheck cfg.strategy hasId = 0
  | .checkKeys keys => keys = 0
  | .containsKey _ | .countKey _ | .dropCounted _ => False
  | .processBatch | .drainIfReady | .dropDrained | .countBatch | .dropBatchStats | .dropNotReady =>
    False
  | _ => True

theorem Fine.next {next : Point} {s : Data} (h : Fine cfg t)
    (hpush : t = .push → s.pending + 1 < cfg.maxBatchSize)
    (hnext : (instr cfg t).next s = some next) : Fine cfg next := by
  cases t with
  | isDuplicate hasId =>
    cases hnext
    exact h
  | checkKeys keys =>
    obtain rfl : keys = 0 := h
    cases hnext
    trivial
  | push =>
    cases hnext
    show Fine cfg (if cfg.maxBatchSize ≤ s.pending + 1 then .processBatch else .dropPending)
    rw [if_neg (Nat.not_le_of_lt (hpush rfl))]
    trivial
  | dropLookedUp id r found => cases found <;> cases hnext <;> trivial
  | dropGot id result copy => cases copy <;> cases hnext <;> trivial
  | dropSized ready => cases ready <;> cases hnext <;> trivial
  | dropExpired cutoff =>
    cases hnext
    split <;> trivial
  | lookUp id r =>
    cases hnext
    dsimp only
    split <;> trivial
  | containsKey | countKey | dropCounted => cases h
  | processBatch | drainIfReady | dropDrained | countBatch | dropBatchStats | dropNotReady => cases h
  | done => cases hnext
  | _ =>
    cases hnext
    trivial

/-- A holder of `records` that does not want `keyIndex` does not come to want it. -/
theorem not_beforeIndex_next {next : Point} {s : Data} (h : ¬ BeforeIndex t)
    (hrecords : .records ∈ holds t) (hnext : (instr cfg t).next s = some next) :
    ¬ BeforeIndex next := by
  cases t with
  | storeIndex | cleanIndex => exact absurd trivial h
  | store | clean | dropStoreIndex | dropCleanIndex => exact absurd rfl h
  | dropGot id result copy => cases copy <;> cases hnext <;> simp [BeforeIndex, holds]
  | dropScanned | scan | dropStoreRecords | dropCleanRecords | getRecord | update | dropUpdated
  | mark | dropMarked =>
    cases hnext
    simp [BeforeIndex, holds]
  | _ => simp [holds] at hrecords

/-! ## The invariant -/

/-- The account of the guards, which methods are under way, and who is ahead on `records`. -/
structure Sound (cfg : Config) (w : World LockName Data Point) : Prop where
  consistent : w.Consistent (program cfg)
  fine : ∀ i t, w.points i = some t → Fine cfg t
  ahead : w.AheadClear .records AsksRecords BeforeIndex

theorem sound_new (cfg : Config) : Sound cfg (World.new Data.new) where
  consistent := World.consistent_new _
  fine i t hi := by cases hi
  ahead := World.aheadClear_new _

theorem fine_step (h : Sound cfg w) (hcareful : Careful cfg w a) (j : ℕ) (t : Point)
    (hj : (w.step (program cfg) a).points j = some t) : Fine cfg t := by
  cases a with
  | spawn i t₀ =>
    simp only [World.step] at hj
    split at hj
    · split at hj
      · rename_i hentry
        rw [World.points_setPoint] at hj
        split at hj
        · cases hj
          -- A call starts at the head of a method.
          cases t with
          | isDuplicate hasId => exact hcareful
          | checkKeys | containsKey | countKey | dropCounted => exact hentry.elim
          | processBatch | drainIfReady | dropDrained | countBatch | dropBatchStats
          | dropNotReady => exact hentry.elim
          | _ => trivial
        · exact h.fine j t hj
      · exact h.fine j t hj
    · exact h.fine j t hj
  | run i =>
    simp only [World.step] at hj
    split at hj
    · exact h.fine j t hj
    · rename_i t₀ hi
      split at hj
      · exact h.fine j t hj
      · rw [World.points_exec] at hj
        split at hj
        · have hfine := h.fine i t₀ hi
          cases hnext : ((program cfg).instr t₀).next w.data with
          | none =>
            rw [hnext, Option.none_or] at hj
            exact h.fine i t hj
          | some next =>
            rw [hnext, Option.some_or] at hj
            cases hj
            refine hfine.next (fun ht => hcareful.1 ?_) hnext
            rw [hi, ht]
        · exact h.fine j t hj

theorem Sound.step (h : Sound cfg w) (hcareful : Careful cfg w a) :
    Sound cfg (w.step (program cfg) a) where
  consistent := h.consistent.step a
  fine := fine_step h hcareful
  ahead := by
    refine h.ahead.step h.consistent (fun t s next => not_beforeIndex_next) ?_
    cases a with
    | spawn i t => trivial
    | run i => exact hcareful.2

/-! ## Ranks -/

/-- The order in which the locks are taken, with `keyIndex` before `records` or behind it. -/
def rank (indexFirst : Bool) : LockName → ℕ
  | .keyIndex => if indexFirst then 0 else 1
  | .records => if indexFirst then 1 else 0
  | .stats | .pending => 0
  | .entries | .batchStats => 1

theorem rank_le (indexFirst : Bool) (k : LockName) : rank indexFirst k ≤ 1 := by
  cases indexFirst <;> cases k <;> decide

/-- What a waiting call of the methods under way holds: `stats` before `entries`, or one of `keyIndex`
and `records` before the other. -/
theorem Fine.held_before (h : Fine cfg t) {k k' : LockName} {rest : List LockName}
    (hholds : holds t = k' :: rest) (hk : k ∈ rest) :
    (k = .stats ∧ k' = .entries) ∨ (k = .keyIndex ∧ k' = .records ∧ AsksRecords t) ∨
      (k = .records ∧ k' = .keyIndex ∧ BeforeIndex t) := by
  cases t with
  | containsKey | dropCounted => cases h
  | drainIfReady | dropDrained | dropNotReady | dropBatchStats => cases h
  | dropSize =>
    cases hholds
    exact .inl ⟨by simpa using hk, rfl⟩
  | scan | dropScanned =>
    cases hholds
    exact .inr (.inl ⟨by simpa using hk, rfl, rfl⟩)
  | store | clean | dropStoreIndex | dropCleanIndex =>
    cases hholds
    exact .inr (.inr ⟨by simpa using hk, rfl, rfl⟩)
  | _ =>
    cases hholds
    try cases hk

/-- While a call that holds `keyIndex` waits for `records`, no call that holds `records` waits for
`keyIndex`. -/
theorem Sound.not_crossed (h : Sound cfg w) {i j : ℕ} (hi : w.Holds i .keyIndex)
    (hwaits : w.Waits i .records) (hj : w.Holds j .records) : ¬ w.Waits j .keyIndex := by
  intro hcross
  obtain ⟨t, rest, ht, hholds, hmem⟩ := h.consistent.holds_waits hi hwaits
  obtain ⟨t', rest', ht', hholds', hmem'⟩ := h.consistent.holds_waits hj hcross
  have hasks : AsksRecords t := by
    rcases (h.fine i t ht).held_before hholds hmem with ⟨heq, -⟩ | ⟨-, -, hasks⟩ | ⟨heq, -⟩
    · cases heq
    · exact hasks
    · cases heq
  have hbefore : BeforeIndex t' := by
    rcases (h.fine j t' ht').held_before hholds' hmem' with ⟨heq, -⟩ | ⟨heq, -⟩ | ⟨-, -, hbefore⟩
    · cases heq
    · cases heq
    · exact hbefore
  obtain ⟨m, hm⟩ := hwaits
  obtain ⟨l₁, l₂, hqueue⟩ := List.append_of_mem hm
  obtain ⟨m', hm'⟩ := hj
  exact h.ahead l₁ (i, m) l₂ hqueue ⟨t, ht, hasks⟩ (j, m') (List.mem_append_left _ hm') t' ht' hbefore

theorem Sound.not_deadlocked (h : Sound cfg w) {d : Set ℕ} (hd : d.Nonempty) :
    ¬ w.Deadlocked d := by
  -- The order of the two locks of the storage is that of the call that waits, if there is one.
  obtain ⟨indexFirst, hfirst⟩ : ∃ b : Bool, ∀ i,
      (w.Holds i .keyIndex → w.Waits i .records → b = true) ∧
        (w.Holds i .records → w.Waits i .keyIndex → b = false) := by
    by_cases hex : ∃ i, w.Holds i .keyIndex ∧ w.Waits i .records
    · obtain ⟨i, hi, hwaits⟩ := hex
      exact ⟨true, fun j => ⟨fun _ _ => rfl, fun hj hcross =>
        absurd hcross (h.not_crossed hi hwaits hj)⟩⟩
    · exact ⟨false, fun j => ⟨fun hj hwaits => absurd ⟨j, hj, hwaits⟩ hex, fun _ _ => rfl⟩⟩
  refine not_deadlocked_of_rank (rank indexFirst) 1 (rank_le indexFirst) ?_ hd
  intro i k k' hholds hwaits
  obtain ⟨t, rest, ht, heq, hmem⟩ := h.consistent.holds_waits hholds hwaits
  rcases (h.fine i t ht).held_before heq hmem with ⟨rfl, rfl⟩ | ⟨rfl, rfl, -⟩ | ⟨rfl, rfl, -⟩
  · exact Nat.one_pos
  · rw [(hfirst i).1 hholds hwaits]
    decide
  · rw [(hfirst i).2 hholds hwaits]
    decide

/-! ## Deadlocks over runs -/

/-- Where the calls lead. -/
def reached (cfg : Config) (acts : List (Act Point)) : World LockName Data Point :=
  run (World.step (program cfg)) (World.new Data.new) acts

/-- Between careful calls no set of calls is deadlocked. -/
theorem no_deadlock (cfg : Config) {acts : List (Act Point)}
    (h : Along (World.step (program cfg)) (Careful cfg) (World.new Data.new) acts) {d : Set ℕ}
    (hd : d.Nonempty) : ¬ (reached cfg acts).Deadlocked d := by
  have hsound : Sound cfg (reached cfg acts) :=
    invariant_along (I := Sound cfg) _ (fun w a hw hc => hw.step hc) (sound_new cfg) h
  exact hsound.not_deadlocked hd

/-! ## Runs of a few calls -/

/-- Messages are deduplicated by their ids, ten make a batch, and one starts it in the background. -/
def byMessageId : Config := ⟨.messageId, true, 10, 1⟩

/-- A record of a processing in progress. -/
def record : ExactlyOnceRecord := ⟨"order-1", 0, .inProgress⟩

/-- A call on its way through `n` points. -/
def through (i : ℕ) (t : Point) (n : ℕ) : List (Act Point) := .spawn i t :: List.replicate n (.run i)

/-- A processing of a key, and another one that starts while the record of the first is stored: it waits
for `keyIndex` with empty hands, and asks for `records` when nobody is on that lock. -/
def oneAfterAnother : List (Act Point) :=
  through 0 (.startProcessing 0 record) 5 ++ through 1 (.startProcessing 1 record) 1 ++
    List.replicate 3 (.run 0) ++ List.replicate 3 (.run 1) ++ through 2 .addToBatch 2

theorem no_deadlock_oneAfterAnother :
    ¬ (reached byMessageId oneAfterAnother).Deadlocked Set.univ :=
  no_deadlock byMessageId (by decide +kernel) Set.univ_nonempty

/-- `is_duplicate` of a message with an id. -/
def checksKey : List (Act Point) := through 0 (.isDuplicate true) 4

/-- `add_to_batch` of the tenth message. -/
def fillsBatch : List (Act Point) := (List.range 10).flatMap fun i => through i .addToBatch 4

/-- A key was processed, and is started twice: one start is at `store_record` when the other one is at
`is_processing`. -/
def crossed : List (Act Point) :=
  through 0 (.startProcessing 0 record) 9 ++ through 1 (.completeProcessing 0 .success) 12 ++
    through 2 (.startProcessing 2 record) 7 ++ through 3 (.startProcessing 3 record) 3 ++ [.run 2]

/-- `is_duplicate` waits for itself, `add_to_batch` waits for itself, and two starts of a key wait for
each other. -/
theorem deadlocks :
    (reached byMessageId checksKey).Deadlocked {0} ∧
      (reached byMessageId fillsBatch).Deadlocked {9} ∧
      (reached byMessageId crossed).Deadlocked {2, 3} := by
  refine ⟨?_, ?_, ?_⟩
  · rintro i rfl
    exact ⟨.stats, ⟨.write, by decide +kernel⟩, 0, rfl, .write, by decide +kernel⟩
  · rintro i rfl
    exact ⟨.pending, ⟨.write, by decide +kernel⟩, 9, rfl, .write, by decide +kernel⟩
  · rintro i (rfl | rfl)
    · exact ⟨.keyIndex, ⟨.write, by decide +kernel⟩, 3, .inr rfl, .read, by decide +kernel⟩
    · exact ⟨.records, ⟨.read, by decide +kernel⟩, 2, .inl rfl, .write, by decide +kernel⟩

end Backbone.Queue.Locks
