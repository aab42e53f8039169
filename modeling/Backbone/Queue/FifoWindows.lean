import Backbone.Lib.Cache
import Backbone.Queue.Fifo

/-!
# The deduplication windows of the FIFO wrapper

A deduplication id is put in a cache when its message is accepted, and `get_fifo_stats` and
`cleanup_deduplication` drop what has left the window. `enqueue_fifo` asks only whether the cache
holds the id, so an id is refused until somebody cleans up, and nothing is ever put in the cache of
contents.

A window is a `u64` that is compared as an `i64`: one of `2 ^ 63` seconds or more is negative.

Reference: `backbone-queue/src/fifo.rs`.
-/

namespace Backbone.Queue.Fifo

open Machine Cache

variable {π : Type}

/-- `FifoQueueConfig`, with what the cleanups read of it. -/
structure FifoQueueWindows extends FifoQueueConfig where
  deduplicationWindowSeconds : UInt64
  contentDeduplicationWindowSeconds : UInt64
  maxDeduplicatedMessages : ℕ

/-- `num_seconds`. -/
def numSeconds (nanos : ℤ) : ℤ := nanos.tdiv 1000000000

/-- `now.signed_duration_since(timestamp).num_seconds() < window as i64`. -/
def inWindow (window : UInt64) (now timestamp : ℤ) : Bool :=
  numSeconds (now - timestamp) < window.toBitVec.toInt

/-- The entries above the limit are dropped, in the order in which the map iterates over its keys. -/
def limitEntries (max : ℕ) (order : List String) (cache : AList fun _ : String => ℤ) :
    AList fun _ : String => ℤ :=
  if max < cache.entries.length then
    let keysToRemove := (order.filter (· ∈ cache.keys)).take (cache.entries.length - max)
    keysToRemove.foldl (fun cache key => cache.erase key) cache
  else cache

/-- `cleanup_deduplication`. -/
def cleanupDeduplication (cfg : FifoQueueWindows) (s : Wrapper π) (now : ℤ) : ℕ × Wrapper π :=
  let deduplicationCache := retain (inWindow cfg.deduplicationWindowSeconds now) s.deduplicationCache
  let contentDeduplicationCache :=
    retain (inWindow cfg.contentDeduplicationWindowSeconds now) s.contentDeduplicationCache
  let initialCount := s.deduplicationCache.entries.length + s.contentDeduplicationCache.entries.length
  let finalCount := deduplicationCache.entries.length + contentDeduplicationCache.entries.length
  (initialCount - finalCount,
    { s with
        deduplicationCache := deduplicationCache
        contentDeduplicationCache := contentDeduplicationCache })

/-- `cleanup_expired_entries`. -/
def cleanupExpiredEntries (cfg : FifoQueueWindows) (s : Wrapper π) (now : ℤ)
    (order contentOrder : List String) : Wrapper π :=
  { s with
      deduplicationCache := limitEntries cfg.maxDeduplicatedMessages order
        (retain (inWindow cfg.deduplicationWindowSeconds now) s.deduplicationCache)
      contentDeduplicationCache := limitEntries cfg.maxDeduplicatedMessages contentOrder
        (retain (inWindow cfg.contentDeduplicationWindowSeconds now) s.contentDeduplicationCache) }

/-- A call, with the reading of the clock it takes. -/
inductive WindowCall (π : Type) where
  | enqueueFifo (m : QueueMessage π) (now : ℤ)
  /-- `get_fifo_stats`, which cleans up; the maps iterate over their keys in the given orders. -/
  | getFifoStats (now : ℤ) (order contentOrder : List String)
  | cleanupDeduplication (now : ℤ)

def WindowCall.now : WindowCall π → ℤ
  | .enqueueFifo _ now | .getFifoStats now _ _ | .cleanupDeduplication now => now

def Wrapper.windowStep (e : Hasher π) (cfg : FifoQueueWindows) (s : Wrapper π) :
    WindowCall π → Wrapper π
  | .enqueueFifo m now => (Fifo.enqueueFifo e cfg.toFifoQueueConfig s m now).2
  | .getFifoStats now order contentOrder => cleanupExpiredEntries cfg s now order contentOrder
  | .cleanupDeduplication now => (Fifo.cleanupDeduplication cfg s now).2

/-! ## What was accepted -/

/-- An accepted message. -/
structure Accepted (π : Type) where
  id : String
  payload : π
  time : ℤ

/-- What was accepted, each message with whether every cleanup since has kept its id, and the time of
the last call. -/
structure Accepts (π : Type) where
  log : Log (Accepted π)
  clock : ℤ

def Accepts.note (e : Hasher π) (cfg : FifoQueueWindows) (h : Accepts π) (s : Wrapper π)
    (c : WindowCall π) (_ : Wrapper π) : Accepts π :=
  match c with
  | .enqueueFifo m now =>
    match (Fifo.enqueueFifo e cfg.toFifoQueueConfig s m now).1 with
    | .ok _ => ⟨h.log.put ⟨m.dedupId, m.payload, now⟩, now⟩
    | .error _ => { h with clock := now }
  | .getFifoStats now _ _ | .cleanupDeduplication now =>
    ⟨h.log.sweep Accepted.time (inWindow cfg.deduplicationWindowSeconds now), now⟩

section Claims

variable (e : Hasher π) (cfg : FifoQueueWindows)

/-- The wrapper with its history. -/
def windowed : Wrapper π × Accepts π → WindowCall π → Wrapper π × Accepts π :=
  withHistory (Wrapper.windowStep e cfg) (Accepts.note e cfg)

/-- The clock does not go back, and fewer messages than the caches are to hold were accepted within
the window. -/
def Few (q : Wrapper π × Accepts π) (c : WindowCall π) : Prop :=
  q.2.clock ≤ c.now ∧
    (q.2.log.filter fun p => Within cfg.deduplicationWindowSeconds c.now p.item.time).length <
      cfg.maxDeduplicatedMessages

/-- A message with the same deduplication id was accepted within the window. -/
def IdRepeated (log : Log (Accepted π)) (m : QueueMessage π) (now : ℤ) : Prop :=
  ∃ p ∈ log, p.item.id = m.dedupId ∧
    Within cfg.deduplicationWindowSeconds now p.item.time

/-- Content deduplication is on, and its window has seen a message with an equal payload. -/
def ContentRepeated (log : Log (Accepted π)) (m : QueueMessage π) (now : ℤ) : Prop :=
  cfg.enableContentDeduplication = true ∧ ∃ p ∈ log, p.item.payload = m.payload ∧
    Within cfg.contentDeduplicationWindowSeconds now p.item.time

/-- The message is refused as a duplicate. -/
def refused : Except QueueError String → Bool
  | .error (.other _) => true
  | _ => false

/-- A valid message is refused as a duplicate exactly when it repeats an id or a content. -/
def RefusedRight (q : Wrapper π × Accepts π) : WindowCall π → Prop
  | .enqueueFifo m now =>
    validateFifoMessage cfg.toFifoQueueConfig m = .ok () →
      (refused (Fifo.enqueueFifo e cfg.toFifoQueueConfig q.1 m now).1 = true ↔
        IdRepeated cfg q.2.log m now ∨ ContentRepeated cfg q.2.log m now)
  | _ => True

/-- A valid message that repeats a content has an id in the cache. Of any other the id, if the cache
holds it, is one of a message accepted within the window, and a window that is negative as an `i64`
has not made a cleanup drop it. -/
def Settled (q : Wrapper π × Accepts π) : WindowCall π → Prop
  | .enqueueFifo m now =>
    validateFifoMessage cfg.toFifoQueueConfig m = .ok () →
      (ContentRepeated cfg q.2.log m now → q.1.isMessageDuplicated m.dedupId = true) ∧
      (¬ ContentRepeated cfg q.2.log m now →
        (∀ t ∈ q.1.deduplicationCache.lookup m.dedupId, Within cfg.deduplicationWindowSeconds now t) ∧
        (2 ^ 63 ≤ cfg.deduplicationWindowSeconds.toNat →
          ∀ p ∈ q.2.log.latest Accepted.id m.dedupId,
            Within cfg.deduplicationWindowSeconds now p.item.time → p.kept = true))
  | _ => True

end Claims

/-! ## What the calls do -/

section Calls

variable {e : Hasher π} {cfg : FifoQueueWindows} {s : Wrapper π}

theorem limitEntries_of_le {max : ℕ} (order : List String) {cache : AList fun _ : String => ℤ}
    (h : cache.entries.length ≤ max) : limitEntries max order cache = cache :=
  if_neg (Nat.not_lt.mpr h)

/-- With no contents in the cache a message is seen by its id. -/
theorem seen_of_empty (e : Hasher π) (cfg : FifoQueueWindows)
    (hcontent : s.contentDeduplicationCache = ∅) (m : QueueMessage π) :
    s.seen e cfg.toFifoQueueConfig m = s.isMessageDuplicated m.dedupId := by
  have hnone : s.isContentDuplicated e (generateContentHash e m.payload) = false := by
    rw [Wrapper.isContentDuplicated, hcontent]
    rfl
  rw [Wrapper.seen, hnone, Bool.and_false, Bool.or_false]

theorem enqueueFifo_invalid {m : QueueMessage π} {err : QueueError}
    (herr : validateFifoMessage cfg.toFifoQueueConfig m = .error err) (now : ℤ) :
    enqueueFifo e cfg.toFifoQueueConfig s m now = (.error err, s) := by
  unfold enqueueFifo
  rw [herr]

end Calls

/-! ## What the cache holds -/

section Invariant

variable {e : Hasher π} {cfg : FifoQueueWindows} {q : Wrapper π × Accepts π}
  {window : UInt64} {now time : ℤ}

/-- The caches agree with the log, the log is in the order of time, and what a cleanup dropped had
left the window. -/
structure Recorded (cfg : FifoQueueWindows) (q : Wrapper π × Accepts π) : Prop where
  accounts : Log.Accounts Accepted.id Accepted.time q.2.log q.1.deduplicationCache
  noContent : q.1.contentDeduplicationCache = ∅
  ordered : (q.2.log.map (·.item)).Pairwise fun a b => b.time ≤ a.time
  past : ∀ a ∈ q.2.log.map (·.item), a.time ≤ q.2.clock
  left : cfg.deduplicationWindowSeconds.toNat < 2 ^ 63 → ∀ p ∈ q.2.log, p.kept = false →
    ¬ Within cfg.deduplicationWindowSeconds q.2.clock p.item.time

theorem recorded_new (clock : ℤ) : Recorded cfg (Wrapper.new π, ⟨[], clock⟩) :=
  ⟨Log.Accounts.empty, rfl, List.Pairwise.nil, fun _ ha => absurd ha List.not_mem_nil,
    fun _ _ hp => absurd hp List.not_mem_nil⟩

/-- What is compared as an `i64` is in the window. -/
theorem within_of_inWindow (hpast : time ≤ now)
    (h : inWindow window now time = true) : Within window now time := by
  have hseconds : (now - time).tdiv 1000000000 < window.toBitVec.toInt := of_decide_eq_true h
  rw [Int.tdiv_eq_ediv_of_nonneg (by omega)] at hseconds
  have hdiv : (now - time) / 1000000000 < window.toNat := hseconds.trans_le (toInt_le_toNat window)
  unfold Within
  omega

/-- A window that is not negative as an `i64` keeps what is in it. -/
theorem inWindow_of_within (hpast : time ≤ now)
    (hwindow : window.toNat < 2 ^ 63) (h : Within window now time) :
    inWindow window now time = true := by
  unfold Within at h
  refine decide_eq_true ?_
  rw [toInt_of_lt hwindow, numSeconds, Int.tdiv_eq_ediv_of_nonneg (by omega)]
  omega

section

variable (h : Recorded cfg q) {c : WindowCall π} {now : ℤ} {m : QueueMessage π}
include h

/-- A cleanup drops what has left the window, and nothing for the number of entries. -/
theorem Recorded.sweep (hclock : q.2.clock ≤ now)
    (s : Wrapper π) (hcontent : s.contentDeduplicationCache = ∅)
    (hcache : s.deduplicationCache =
      retain (inWindow cfg.deduplicationWindowSeconds now) q.1.deduplicationCache) :
    Recorded cfg (s,
      ⟨q.2.log.sweep Accepted.time (inWindow cfg.deduplicationWindowSeconds now), now⟩) := by
  refine ⟨?_, hcontent, ?_, fun a ha => ?_, fun hwindow p hp hkept hwithin => ?_⟩
  · rw [hcache]
    exact h.accounts.sweep _
  · rw [Log.map_item_sweep]
    exact h.ordered
  · rw [Log.map_item_sweep] at ha
    exact (h.past a ha).trans hclock
  · obtain ⟨p', hp', rfl⟩ := List.mem_map.mp hp
    rcases Bool.and_eq_false_iff.mp hkept with hkept' | hout
    · exact h.left hwindow p' hp' hkept' (hwithin.mono hclock)
    · have hpast := (h.past p'.item (List.mem_map_of_mem hp')).trans hclock
      rw [inWindow_of_within hpast hwindow hwithin] at hout
      cases hout

/-- The entries that a cleanup keeps are fewer than the limit. -/
theorem Recorded.length_lt (hfew : Few cfg q c) :
    (retain (inWindow cfg.deduplicationWindowSeconds c.now) q.1.deduplicationCache).entries.length <
      cfg.maxDeduplicatedMessages := by
  refine Nat.lt_of_le_of_lt ?_ hfew.2
  have hle := (h.accounts.sweep (inWindow cfg.deduplicationWindowSeconds c.now)).length_le
    (f := fun t => decide (Within cfg.deduplicationWindowSeconds c.now t)) ?_
  · rw [Log.sweep, List.filter_map, List.length_map] at hle
    exact hle
  · intro entry hentry
    obtain ⟨hmem, hin⟩ := List.mem_filter.mp hentry
    obtain ⟨p, hp, -, htime⟩ :=
      h.accounts.lookup_eq_some_iff.mp (AList.mem_lookup_iff.mpr hmem)
    have hpast := h.past p.item (List.mem_map_of_mem (Log.mem_latest hp))
    rw [htime] at hpast
    exact decide_eq_true (within_of_inWindow (hpast.trans hfew.1) hin)

theorem Recorded.step (hfew : Few cfg q c) : Recorded cfg (windowed e cfg q c) := by
  obtain ⟨hclock, hcount⟩ := hfew
  cases c with
  | enqueueFifo m now =>
    have hpast : ∀ a ∈ q.2.log.map (·.item), a.time ≤ now := fun a ha => (h.past a ha).trans hclock
    have hleft : cfg.deduplicationWindowSeconds.toNat < 2 ^ 63 → ∀ p ∈ q.2.log, p.kept = false →
        ¬ Within cfg.deduplicationWindowSeconds now p.item.time :=
      fun hwindow p hp hkept hwithin => h.left hwindow p hp hkept (hwithin.mono hclock)
    cases hvalid : validateFifoMessage cfg.toFifoQueueConfig m with
    | error err =>
      have herr := enqueueFifo_invalid (e := e) (s := q.1) hvalid now
      simp only [windowed, withHistory, Wrapper.windowStep, Accepts.note, herr]
      exact ⟨h.accounts, h.noContent, h.ordered, hpast, hleft⟩
    | ok =>
      rcases enqueueFifo_seen (e := e) (s := q.1) hvalid now with ⟨-, text, henqueue⟩ | ⟨-, henqueue⟩
      · simp only [windowed, withHistory, Wrapper.windowStep, Accepts.note, henqueue]
        exact ⟨h.accounts, h.noContent, h.ordered, hpast, hleft⟩
      · simp only [windowed, withHistory, Wrapper.windowStep, Accepts.note, henqueue]
        refine ⟨h.accounts.put ⟨m.dedupId, m.payload, now⟩, h.noContent,
          List.pairwise_cons.mpr ⟨hpast, h.ordered⟩, List.forall_mem_cons.mpr ⟨le_rfl, hpast⟩, ?_⟩
        exact fun hwindow => List.forall_mem_cons.mpr
          ⟨fun hkept => absurd hkept Bool.true_eq_false.mp, hleft hwindow⟩
  | getFifoStats now order contentOrder =>
    refine h.sweep hclock (cleanupExpiredEntries cfg q.1 now order contentOrder) ?_ ?_
    · show limitEntries _ contentOrder (retain _ q.1.contentDeduplicationCache) = ∅
      rw [h.noContent]
      exact if_neg (Nat.not_lt_zero _)
    · exact limitEntries_of_le order
        (@Recorded.length_lt π cfg q h (.getFifoStats now order contentOrder) ⟨hclock, hcount⟩).le
  | cleanupDeduplication now =>
    refine h.sweep hclock (cleanupDeduplication cfg q.1 now).2 ?_ rfl
    rw [cleanupDeduplication, h.noContent]
    rfl

/-- The newest message with an id is the youngest. -/
theorem Recorded.idRepeated_iff :
    IdRepeated cfg q.2.log m now ↔
      ∃ p, q.2.log.latest Accepted.id (m.dedupId) = some p ∧
        Within cfg.deduplicationWindowSeconds now p.item.time := by
  constructor
  · rintro ⟨p', hp', hid, hwithin⟩
    obtain ⟨p, hp⟩ := Log.exists_latest hp' hid
    have hle := Log.rel_latest (fun a b => b.time ≤ a.time) (fun _ => le_rfl) h.ordered hp hp' hid
    refine ⟨p, hp, ?_⟩
    unfold Within at hwithin ⊢
    omega
  · rintro ⟨p, hp, hwithin⟩
    exact ⟨p, Log.mem_latest hp, Log.key_latest hp, hwithin⟩

theorem Recorded.isMessageDuplicated_iff {id : String} :
    q.1.isMessageDuplicated id = true ↔
      ∃ p, q.2.log.latest Accepted.id id = some p ∧ p.kept = true := by
  rw [Wrapper.isMessageDuplicated, Option.isSome_iff_exists]
  constructor
  · rintro ⟨t, ht⟩
    obtain ⟨p, hp, hkept, -⟩ := h.accounts.lookup_eq_some_iff.mp ht
    exact ⟨p, hp, hkept⟩
  · rintro ⟨p, hp, hkept⟩
    exact ⟨_, h.accounts.lookup_eq_some_iff.mpr ⟨p, hp, hkept, rfl⟩⟩

/-- A valid message is refused exactly when the cache holds its id. -/
theorem Recorded.refused_iff
    (hvalid : validateFifoMessage cfg.toFifoQueueConfig m = .ok ()) (now : ℤ) :
    refused (enqueueFifo e cfg.toFifoQueueConfig q.1 m now).1 = true ↔
      q.1.isMessageDuplicated (m.dedupId) = true := by
  have hid := seen_of_empty e cfg h.noContent m
  rcases enqueueFifo_seen (e := e) (s := q.1) hvalid now with
    ⟨hseen, text, henqueue⟩ | ⟨hseen, henqueue⟩
  · rw [henqueue]
    exact iff_of_true rfl (hid.symm.trans hseen)
  · rw [henqueue, show q.1.isMessageDuplicated _ = false from hid.symm.trans hseen]
    exact iff_of_false Bool.false_ne_true Bool.false_ne_true

theorem Recorded.refusedRight_iff
    (hclock : q.2.clock ≤ c.now) : RefusedRight e cfg q c ↔ Settled cfg q c := by
  cases c with
  | enqueueFifo m now =>
    refine imp_congr_right fun hvalid => ?_
    rw [h.refused_iff hvalid]
    by_cases hcontent : ContentRepeated cfg q.2.log m now
    · exact ⟨fun hiff => ⟨fun _ => hiff.mpr (.inr hcontent), fun hne => absurd hcontent hne⟩,
        fun hsettled => iff_of_true (hsettled.1 hcontent) (.inr hcontent)⟩
    · rw [or_iff_left hcontent, h.idRepeated_iff, h.isMessageDuplicated_iff]
      constructor
      · intro hiff
        refine ⟨fun hrepeated => absurd hrepeated hcontent, fun _ => ⟨fun t ht => ?_,
          fun _ p hp hwithin => ?_⟩⟩
        · obtain ⟨p, hp, hkept, rfl⟩ := h.accounts.lookup_eq_some_iff.mp ht
          obtain ⟨p', hp', hwithin⟩ := hiff.mp ⟨p, hp, hkept⟩
          rw [hp] at hp'
          cases hp'
          exact hwithin
        · rw [Option.mem_def] at hp
          obtain ⟨p', hp', hkept⟩ := hiff.mpr ⟨p, hp, hwithin⟩
          rw [hp] at hp'
          cases hp'
          exact hkept
      · intro hsettled
        obtain ⟨hyoung, hkept⟩ := hsettled.2 hcontent
        constructor
        · rintro ⟨p, hp, hk⟩
          exact ⟨p, hp, hyoung _ (h.accounts.lookup_eq_some_iff.mpr ⟨p, hp, hk, rfl⟩)⟩
        · rintro ⟨p, hp, hwithin⟩
          by_cases hwindow : cfg.deduplicationWindowSeconds.toNat < 2 ^ 63
          · refine ⟨p, hp, Bool.eq_true_of_not_eq_false fun hdropped => ?_⟩
            exact h.left hwindow p (Log.mem_latest hp) hdropped (hwithin.mono hclock)
          · exact ⟨p, hp, hkept (Nat.not_lt.mp hwindow) p hp hwithin⟩
  | getFifoStats now order contentOrder => exact Iff.rfl
  | cleanupDeduplication now => exact Iff.rfl

end

end Invariant

/-- In every run with few messages a window, enqueues refuse exactly the duplicates when each meets
the condition. -/
theorem refused_right_iff (e : Hasher π) (cfg : FifoQueueWindows) (clock : ℤ)
    (cs : List (WindowCall π))
    (hfew : Along (windowed e cfg) (Few cfg) (Wrapper.new π, ⟨[], clock⟩) cs) :
    Along (windowed e cfg) (RefusedRight e cfg) (Wrapper.new π, ⟨[], clock⟩) cs ↔
      Along (windowed e cfg) (Settled cfg) (Wrapper.new π, ⟨[], clock⟩) cs :=
  along_congr_of_invariant (windowed e cfg) (fun _ _ h hc => h.step hc)
    (fun _ _ h hc => h.refusedRight_iff hc.1) (recorded_new clock) hfew

/-! ## Runs of one message -/

/-- The hashes of the texts that one message has hashed: its group, its payload and the hash of
that. -/
def stdHash : Hasher Unit where
  hash text :=
    if text = "null" then 12839561789930918353
    else if text = "b22f496bc882d1d1" then 4696505426980917481
    else 8186225505942432243
  render _ := "null"

/-- The defaults, with content deduplication on. -/
def windows : FifoQueueWindows := ⟨⟨true, true⟩, 300, 60, 100000⟩

/-- A message of a group, without a payload. -/
def note (id : String) : QueueMessage Unit := ⟨id, (), ∅, some "a", some id⟩

instance [DecidableEq π] (cfg : FifoQueueWindows) (log : Log (Accepted π)) (m : QueueMessage π)
    (now : ℤ) : Decidable (ContentRepeated cfg log m now) := by
  unfold ContentRepeated
  infer_instance

instance [DecidableEq π] (cfg : FifoQueueWindows) (log : Log (Accepted π)) (m : QueueMessage π)
    (now : ℤ) : Decidable (IdRepeated cfg log m now) := by
  unfold IdRepeated
  infer_instance

instance (cfg : FifoQueueWindows) (q : Wrapper π × Accepts π) (c : WindowCall π) :
    Decidable (Few cfg q c) :=
  inferInstanceAs (Decidable (_ ∧ _))

instance [DecidableEq π] (e : Hasher π) (cfg : FifoQueueWindows) (q : Wrapper π × Accepts π) :
    ∀ c, Decidable (RefusedRight e cfg q c)
  | .enqueueFifo _ _ => inferInstanceAs (Decidable (_ → (_ ↔ _)))
  | .getFifoStats _ _ _ => .isTrue trivial
  | .cleanupDeduplication _ => .isTrue trivial

instance [DecidableEq π] (cfg : FifoQueueWindows) (q : Wrapper π × Accepts π) :
    ∀ c, Decidable (Settled cfg q c)
  | .enqueueFifo _ _ => inferInstanceAs (Decidable (_ → (_ ∧ _)))
  | .getFifoStats _ _ _ => .isTrue trivial
  | .cleanupDeduplication _ => .isTrue trivial

/-- A message is sent twice within the windows, and again after the statistics were asked for. -/
def cleanedRun : List (WindowCall Unit) :=
  [.enqueueFifo (note "m") 0, .enqueueFifo (note "m") 10000000000,
    .getFifoStats 310000000000 ["m"] [], .enqueueFifo (note "m") 320000000000]

theorem refused_right_cleaned :
    Along (windowed stdHash windows) (RefusedRight stdHash windows) (Wrapper.new Unit, ⟨[], 0⟩)
      cleanedRun :=
  (refused_right_iff stdHash windows 0 cleanedRun (by decide +kernel)).mpr (by decide +kernel)

/-- A payload that is sent again under another id is accepted, an id that has left the window is
refused as long as nobody cleans up, and a cleanup drops the id of a window that is negative as an
`i64`. -/
theorem not_refused_right :
    ¬ Along (windowed stdHash windows) (RefusedRight stdHash windows) (Wrapper.new Unit, ⟨[], 0⟩)
        [.enqueueFifo (note "m") 0, .enqueueFifo (note "n") 10000000000] ∧
      ¬ Along (windowed stdHash windows) (RefusedRight stdHash windows) (Wrapper.new Unit, ⟨[], 0⟩)
        [.enqueueFifo (note "m") 0, .enqueueFifo (note "m") 301000000000] ∧
      ¬ Along (windowed stdHash { windows with deduplicationWindowSeconds := 9223372036854775808 })
        (RefusedRight stdHash { windows with deduplicationWindowSeconds := 9223372036854775808 })
        (Wrapper.new Unit, ⟨[], 0⟩)
        [.enqueueFifo (note "m") 0, .cleanupDeduplication 61000000000,
          .enqueueFifo (note "m") 62000000000] := by
  decide +kernel

end Backbone.Queue.Fifo
