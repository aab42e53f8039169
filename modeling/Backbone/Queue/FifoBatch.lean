import Backbone.Lib.Except
import Backbone.Queue.FifoOrder

/-!
# Batches of the FIFO wrapper

`enqueue_fifo_batch` validates all messages first. Then it sorts them by group and enqueues one
after the other, so the ids it answers are those of the sorted list, and a message that is refused
leaves what was enqueued before it in the queue and its deduplication id in the cache.

Reference: `backbone-queue/src/fifo.rs`.
-/

namespace Backbone.Queue.Fifo

variable {π : Type} {ms : List (QueueMessage π)}
  {m : QueueMessage π} {e : Hasher π} {cfg : FifoQueueConfig} {s : Wrapper π}

section Claims

variable (e : Hasher π) (cfg : FifoQueueConfig) (s : Wrapper π) (ms : List (QueueMessage π))

/-- A batch that is answered is enqueued with its ids in their order and each group in its order,
and of a batch that is refused nothing is enqueued or seen. -/
def BatchRight (clock : ℕ → ℤ) : Prop :=
  (∀ ids, (enqueueFifoBatch e cfg s ms clock).1 = .ok ids →
    ids = ms.map (·.id) ∧
      ∀ g, (ofGroup g ((enqueueFifoBatch e cfg s ms clock).2.queue.drop s.queue.length)).map (·.id) =
        (ms.filter (·.group = g)).map (·.id)) ∧
  ∀ err, (enqueueFifoBatch e cfg s ms clock).1 = .error err →
    (enqueueFifoBatch e cfg s ms clock).2 = s

/-- No message was seen, in the batch or before it. -/
def Unseen : Prop := (∀ m ∈ ms, s.seen e cfg m = false) ∧ (ms.map (·.dedupId)).Nodup

/-- The first message of the least group was seen. -/
def LeastSeen : Prop :=
  ∃ p m r, ms = p ++ m :: r ∧ (∀ a ∈ p, m.group < a.group) ∧ (∀ a ∈ r, m.group ≤ a.group) ∧
    s.seen e cfg m = true

/-- Some message is invalid, or the first of the least group was seen, or none was seen and the ids
are in the order of the groups. -/
def BatchFits : Prop :=
  (∃ m ∈ ms, validateFifoMessage cfg m ≠ .ok ()) ∨ LeastSeen e cfg s ms ∨
    Unseen e cfg s ms ∧ (sortByGroup ms).map (·.id) = ms.map (·.id)

end Claims

/-! ## The order of the groups -/

theorem pairwise_sortByGroup (ms : List (QueueMessage π)) :
    (sortByGroup ms).Pairwise fun a b => a.group ≤ b.group := by
  have : Std.Total fun a b : QueueMessage π => a.group ≤ b.group := ⟨fun a b => le_total _ _⟩
  have : IsTrans (QueueMessage π) fun a b => a.group ≤ b.group := ⟨fun _ _ _ => le_trans⟩
  exact List.pairwise_insertionSort _ ms

theorem mem_sortByGroup : m ∈ sortByGroup ms ↔ m ∈ ms :=
  List.mem_insertionSort _

/-- The first in the order of the groups is the first of the least group. -/
theorem head?_sortByGroup_eq_some_iff :
    (sortByGroup ms).head? = some m ↔
      ∃ p r, ms = p ++ m :: r ∧ (∀ a ∈ p, m.group < a.group) ∧ ∀ a ∈ r, m.group ≤ a.group := by
  have hfirst : ∀ b, (sortByGroup ms).head? = some b →
      (∀ a ∈ ms, b.group ≤ a.group) ∧ ms.find? (fun a => a.group = b.group) = some b := by
    intro b hb
    obtain ⟨rest, hrest⟩ := List.head?_eq_some_iff.mp hb
    have hsorted := pairwise_sortByGroup ms
    rw [hrest] at hsorted
    refine ⟨fun a ha => ?_, ?_⟩
    · rw [← mem_sortByGroup, hrest] at ha
      rcases List.mem_cons.mp ha with rfl | ha
      · exact le_rfl
      · exact (List.pairwise_cons.mp hsorted).1 a ha
    · rw [← List.head?_filter, ← filter_sortByGroup, hrest]
      simp
  constructor
  · intro hm
    obtain ⟨hleast, hfind⟩ := hfirst m hm
    obtain ⟨-, p, r, hms, hp⟩ := List.find?_eq_some_iff_append.mp hfind
    refine ⟨p, r, hms, fun a ha => ?_, fun a ha => ?_⟩
    · have hne : a.group ≠ m.group := by simpa using hp a ha
      have hmem : a ∈ ms := hms ▸ List.mem_append_left _ ha
      exact lt_of_le_of_ne (hleast a hmem) hne.symm
    · exact hleast a (hms ▸ List.mem_append_right _ (List.mem_cons_of_mem _ ha))
  · rintro ⟨p, r, hms, hp, hr⟩
    have hmem : m ∈ ms := hms ▸ List.mem_append_right _ List.mem_cons_self
    cases hhead : (sortByGroup ms).head? with
    | none =>
      rw [List.head?_eq_none_iff] at hhead
      rw [← mem_sortByGroup, hhead] at hmem
      cases hmem
    | some b =>
      obtain ⟨hleast, hfind⟩ := hfirst b hhead
      have hle : m.group ≤ b.group := by
        have hb := List.mem_of_find?_eq_some hfind
        rw [hms] at hb
        rcases List.mem_append.mp hb with hb | hb
        · exact (hp b hb).le
        · rcases List.mem_cons.mp hb with rfl | hb
          · exact le_rfl
          · exact hr b hb
      have hgroup : b.group = m.group := le_antisymm (hleast m hmem) hle
      have hown : ms.find? (fun a => a.group = m.group) = some m := by
        refine List.find?_eq_some_iff_append.mpr ⟨by simp, p, r, hms, fun a ha => ?_⟩
        simpa using (hp a ha).ne'
      rw [hgroup] at hfind
      exact hfind.symm.trans hown

/-! ## The loop -/

section Loop

variable {e : Hasher π} {cfg : FifoQueueConfig} {s : Wrapper π} {m : QueueMessage π} (clock : ℕ → ℤ)
  (k : ℕ)

/-- Behind a message the next ones are seen for its sake, or as before. -/
theorem seen_behind (m' : QueueMessage π) (now : ℤ) :
    (s.behind e cfg m now).seen e cfg m' = (decide (m'.dedupId = m.dedupId) || s.seen e cfg m') := by
  have hcache : ((s.deduplicationCache.insert m.dedupId now).lookup m'.dedupId).isSome =
      (decide (m'.dedupId = m.dedupId) || (s.deduplicationCache.lookup m'.dedupId).isSome) := by
    by_cases hid : m'.dedupId = m.dedupId
    · rw [hid, AList.lookup_insert]
      simp
    · rw [AList.lookup_insert_ne hid]
      simp [hid]
  unfold Wrapper.behind Wrapper.seen Wrapper.isMessageDuplicated
  dsimp only
  rw [hcache, Bool.or_assoc]
  rfl

theorem unseen_cons_iff (hseen : s.seen e cfg m = false) (now : ℤ) (ms : List (QueueMessage π)) :
    Unseen e cfg s (m :: ms) ↔ Unseen e cfg (s.behind e cfg m now) ms := by
  simp only [Unseen, seen_behind, List.forall_mem_cons, hseen, true_and, List.map_cons,
    List.nodup_cons, List.mem_map, Bool.or_eq_false_iff, decide_eq_false_iff_not]
  constructor
  · rintro ⟨hms, hnot, hnodup⟩
    exact ⟨fun m' hm' => ⟨fun hid => hnot ⟨m', hm', hid⟩, hms m' hm'⟩, hnodup⟩
  · rintro ⟨hms, hnodup⟩
    exact ⟨fun m' hm' => (hms m' hm').2, fun ⟨m', hm', hid⟩ => (hms m' hm').1 hid, hnodup⟩

/-- The loop goes on behind a message that was not seen. -/
theorem enqueueAll_behind (ms : List (QueueMessage π))
    (hvalid : validateFifoMessage cfg m = .ok ()) (hseen : s.seen e cfg m = false) :
    enqueueAll e cfg clock k s (m :: ms) =
      ((enqueueAll e cfg clock (k + 1) (s.behind e cfg m (clock k)) ms).1.map (m.id :: ·),
        (enqueueAll e cfg clock (k + 1) (s.behind e cfg m (clock k)) ms).2) := by
  have henqueue : enqueueFifo e cfg s m (clock k) = (.ok m.id, s.behind e cfg m (clock k)) := by
    rcases enqueueFifo_seen (e := e) (s := s) hvalid (clock k) with ⟨htrue, -⟩ | ⟨-, henqueue⟩
    · rw [hseen] at htrue
      cases htrue
    · exact henqueue
  simp only [enqueueAll, henqueue]
  rcases enqueueAll e cfg clock (k + 1) (s.behind e cfg m (clock k)) ms with ⟨_ | ids, s'⟩ <;> rfl

/-- The loop enqueues all messages when none was seen, and fails otherwise. -/
theorem enqueueAll_spec (hvalid : ∀ m ∈ ms, validateFifoMessage cfg m = .ok ()) :
    (Unseen e cfg s ms ∧ (enqueueAll e cfg clock k s ms).1 = .ok (ms.map (·.id)) ∧
        (enqueueAll e cfg clock k s ms).2.queue =
          s.queue ++ ms.mapIdx fun i m => withFifoMetadata e cfg m (clock (k + i))) ∨
      ¬ Unseen e cfg s ms ∧ ∃ err, (enqueueAll e cfg clock k s ms).1 = .error err := by
  induction ms generalizing k s with
  | nil =>
    refine .inl ⟨⟨fun m hm => absurd hm List.not_mem_nil, List.nodup_nil⟩, rfl, ?_⟩
    simp [enqueueAll]
  | cons m ms ih =>
    obtain ⟨hm, hms⟩ := List.forall_mem_cons.mp hvalid
    rcases enqueueFifo_seen (e := e) (s := s) hm (clock k) with
      ⟨hseen, text, henqueue⟩ | ⟨hseen, -⟩
    · refine .inr ⟨fun hunseen => ?_, .other text, by simp [enqueueAll, henqueue]⟩
      rw [hunseen.1 m List.mem_cons_self] at hseen
      cases hseen
    · rw [unseen_cons_iff hseen (clock k), enqueueAll_behind clock k ms hm hseen]
      rcases ih (k + 1) hms with ⟨hunseen, hids, hqueue⟩ | ⟨hnot, err, herr⟩
      · refine .inl ⟨hunseen, by rw [hids]; rfl, ?_⟩
        rw [hqueue, Wrapper.behind, List.mapIdx_cons, List.append_assoc]
        simp only [Nat.add_zero, List.singleton_append]
        congr 3
        funext i m'
        rw [show k + 1 + i = k + (i + 1) by omega]
      · exact .inr ⟨hnot, err, by rw [herr]; rfl⟩

/-- A loop that has enqueued its first message has changed the queue. -/
theorem enqueueAll_ne (hvalid : validateFifoMessage cfg m = .ok ())
    (hseen : s.seen e cfg m = false) : (enqueueAll e cfg clock k s (m :: ms)).2 ≠ s := by
  intro hsame
  rw [enqueueAll_behind clock k ms hvalid hseen] at hsame
  obtain ⟨n, hqueue⟩ := enqueueAll_queue e cfg clock (k + 1) (s.behind e cfg m (clock k)) ms
  rw [hsame, Wrapper.behind] at hqueue
  have hlength := congrArg List.length hqueue
  simp only [List.length_append, List.length_singleton] at hlength
  omega

end Loop

theorem unseen_sortByGroup_iff : Unseen e cfg s (sortByGroup ms) ↔ Unseen e cfg s ms := by
  have hperm : (sortByGroup ms).Perm ms := List.perm_insertionSort _ ms
  unfold Unseen
  rw [(hperm.map _).nodup_iff]
  simp only [mem_sortByGroup]

theorem leastSeen_iff :
    LeastSeen e cfg s ms ↔ ∃ m, (sortByGroup ms).head? = some m ∧ s.seen e cfg m = true := by
  constructor
  · rintro ⟨p, m, r, hms, hp, hr, hseen⟩
    exact ⟨m, head?_sortByGroup_eq_some_iff.mpr ⟨p, r, hms, hp, hr⟩, hseen⟩
  · rintro ⟨m, hm, hseen⟩
    obtain ⟨p, r, hms, hp, hr⟩ := head?_sortByGroup_eq_some_iff.mp hm
    exact ⟨p, m, r, hms, hp, hr, hseen⟩

section Batches

variable {e : Hasher π} {cfg : FifoQueueConfig} {s : Wrapper π} {ms : List (QueueMessage π)}

/-- A batch with an invalid message is refused before anything is enqueued. -/
theorem enqueueFifoBatch_invalid (hinvalid : ∃ m ∈ ms, validateFifoMessage cfg m ≠ .ok ())
    (clock : ℕ → ℤ) : ∃ err, enqueueFifoBatch e cfg s ms clock = (.error err, s) := by
  unfold enqueueFifoBatch
  cases hforM : ms.forM (validateFifoMessage cfg) with
  | error err => exact ⟨err, rfl⟩
  | ok =>
    obtain ⟨m, hm, hne⟩ := hinvalid
    exact absurd (eq_ok_of_forM hforM m hm) hne

section

variable (hvalid : ∀ m ∈ ms, validateFifoMessage cfg m = .ok ())
include hvalid

theorem enqueueFifoBatch_valid (clock : ℕ → ℤ) :
    enqueueFifoBatch e cfg s ms clock = enqueueAll e cfg clock 0 s (sortByGroup ms) := by
  rw [enqueueFifoBatch, forM_eq_ok hvalid]

/-- A batch of which nothing was seen is enqueued in the order of the groups. -/
theorem batchRight_iff_of_unseen (hunseen : Unseen e cfg s ms) (clock : ℕ → ℤ) :
    BatchRight e cfg s ms clock ↔ (sortByGroup ms).map (·.id) = ms.map (·.id) := by
  have hsorted : ∀ m ∈ sortByGroup ms, validateFifoMessage cfg m = .ok () :=
    fun m hm => hvalid m (mem_sortByGroup.mp hm)
  unfold BatchRight
  rw [enqueueFifoBatch_valid hvalid]
  rcases enqueueAll_spec clock 0 hsorted with ⟨-, hids, hqueue⟩ | ⟨hseen, -⟩
  · rw [hids, hqueue, List.drop_left' rfl]
    constructor
    · intro h
      exact (h.1 _ rfl).1
    · intro hsame
      refine ⟨fun ids h => ?_, fun err h => (by cases h)⟩
      cases h
      refine ⟨hsame, fun g => ?_⟩
      simp only [Nat.zero_add]
      rw [ofGroup_mapIdx, filter_sortByGroup]
  · exact absurd (unseen_sortByGroup_iff.mpr hunseen) hseen

/-- A batch with a duplicate is refused, before anything is enqueued when it is the first message. -/
theorem batchRight_iff_of_seen (hseen : ¬ Unseen e cfg s ms) (clock : ℕ → ℤ) :
    BatchRight e cfg s ms clock ↔ LeastSeen e cfg s ms := by
  have hsorted : ∀ m ∈ sortByGroup ms, validateFifoMessage cfg m = .ok () :=
    fun m hm => hvalid m (mem_sortByGroup.mp hm)
  rw [← unseen_sortByGroup_iff] at hseen
  unfold BatchRight
  rw [enqueueFifoBatch_valid hvalid, leastSeen_iff]
  rcases enqueueAll_spec clock 0 hsorted with ⟨hunseen, -⟩ | ⟨-, err, herr⟩
  · exact absurd hunseen hseen
  · have hstate : ∀ P : List String → Prop,
        ((∀ ids, (enqueueAll e cfg clock 0 s (sortByGroup ms)).1 = .ok ids → P ids) ∧
          ∀ err, (enqueueAll e cfg clock 0 s (sortByGroup ms)).1 = .error err →
            (enqueueAll e cfg clock 0 s (sortByGroup ms)).2 = s) ↔
          (enqueueAll e cfg clock 0 s (sortByGroup ms)).2 = s := by
      intro P
      rw [herr]
      exact ⟨fun h => h.2 err rfl, fun h => ⟨fun ids hids => (by cases hids), fun _ _ => h⟩⟩
    rw [hstate]
    cases hsort : sortByGroup ms with
    | nil =>
      rw [hsort] at hseen
      exact absurd ⟨fun m hm => absurd hm List.not_mem_nil, List.nodup_nil⟩ hseen
    | cons m rest =>
      have hm : validateFifoMessage cfg m = .ok () := hsorted m (hsort ▸ List.mem_cons_self)
      rcases enqueueFifo_seen hm (clock 0) with ⟨htrue, text, henqueue⟩ | ⟨hfalse, -⟩
      · exact iff_of_true (by simp [enqueueAll, henqueue]) ⟨m, rfl, htrue⟩
      · refine iff_of_false (enqueueAll_ne clock 0 hm hfalse) ?_
        rintro ⟨m', hm', htrue⟩
        cases hm'
        rw [hfalse] at htrue
        cases htrue

end

theorem not_unseen_of_leastSeen (h : LeastSeen e cfg s ms) : ¬ Unseen e cfg s ms := by
  obtain ⟨p, m, r, rfl, -, -, hseen⟩ := h
  intro hunseen
  rw [hunseen.1 m (List.mem_append_right _ List.mem_cons_self)] at hseen
  cases hseen

end Batches

/-- A batch keeps its ids and its groups in order, or is refused as a whole, exactly when it fits. -/
theorem batchRight_iff (e : Hasher π) (cfg : FifoQueueConfig) (s : Wrapper π)
    (ms : List (QueueMessage π)) (clock : ℕ → ℤ) :
    BatchRight e cfg s ms clock ↔ BatchFits e cfg s ms := by
  by_cases hvalid : ∀ m ∈ ms, validateFifoMessage cfg m = .ok ()
  · have hnone : ¬ ∃ m ∈ ms, validateFifoMessage cfg m ≠ .ok () :=
      fun ⟨m, hm, hne⟩ => hne (hvalid m hm)
    rw [BatchFits, or_iff_right hnone]
    by_cases hunseen : Unseen e cfg s ms
    · have hfirst : ¬ LeastSeen e cfg s ms := fun h => not_unseen_of_leastSeen h hunseen
      rw [batchRight_iff_of_unseen hvalid hunseen, or_iff_right hfirst, and_iff_right hunseen]
    · rw [batchRight_iff_of_seen hvalid hunseen, or_iff_left fun h => hunseen h.1]
  · have hinvalid : ∃ m ∈ ms, validateFifoMessage cfg m ≠ .ok () := by
      by_contra hnone
      exact hvalid fun m hm => by_contra fun hne => hnone ⟨m, hm, hne⟩
    obtain ⟨err, hbatch⟩ := enqueueFifoBatch_invalid (e := e) (s := s) hinvalid clock
    refine iff_of_true ?_ (.inl hinvalid)
    unfold BatchRight
    rw [hbatch]
    exact ⟨fun ids h => (by cases h), fun _ _ => rfl⟩

/-! ## Batches of two groups -/

/-- Three messages of two groups in turn are answered by the ids of the sorted list, and a batch that
repeats a deduplication id is refused behind its first message. -/
theorem not_batchRight :
    ¬ BatchRight sipHash defaultConfig (Wrapper.new Unit)
        [message "a" "1", message "b" "2", message "a" "3"] (fun k => k) ∧
      ¬ BatchRight sipHash defaultConfig (Wrapper.new Unit)
        [message "a" "1", message "a" "1"] (fun k => k) := by
  constructor
  · intro hright
    have hids := (hright.1 ["1", "3", "2"] (by decide +kernel)).1
    exact absurd hids (by decide)
  · intro hright
    have hstate := hright.2 (.other "Message with deduplication ID 1 already exists")
      (by decide +kernel)
    exact absurd (congrArg (fun s => s.queue.length) hstate) (by decide +kernel)

end Backbone.Queue.Fifo
