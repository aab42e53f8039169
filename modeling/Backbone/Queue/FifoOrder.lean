import Backbone.Queue.Fifo

/-!
# The order of a message group

Groups share one queue, and a dequeue puts the messages of other groups that it passes back at the tail.
The order of another group survives when it passes all of its messages or none. Fewer than 50 messages
may stand before the group's first one, or the dequeue gives up.

A sequence number is a reading of the clock plus the hash of the group, modulo `2 ^ 64`: within a group
it grows with the readings unless the sum wraps between two of them, and two messages of one reading
have one number.

Reference: `backbone-queue/src/fifo.rs`.
-/

namespace Backbone.Queue.Fifo

open Machine

variable {π : Type} {e : Hasher π} {cfg : FifoQueueConfig} {s : Wrapper π}

/-- The messages of a group, in their order. -/
def ofGroup (g : String) (q : List (QueueMessage π)) : List (QueueMessage π) :=
  q.filter fun m => m.fifoGroup = some g

@[simp] theorem ofGroup_append (g : String) (p q : List (QueueMessage π)) :
    ofGroup g (p ++ q) = ofGroup g p ++ ofGroup g q := List.filter_append ..

/-! ## Dequeueing in order -/

/-- No group has messages in both parts. -/
def Apart (p r : List (QueueMessage π)) : Prop :=
  ∀ a ∈ p, ∀ b ∈ r, a.fifoGroup ≠ b.fifoGroup

/-- What a dequeue for the group moves to the tail: the messages before the group's first one, or, when
there is none, as many as it has attempts. -/
def passed (g : String) (q : List (QueueMessage π)) : List (QueueMessage π) :=
  if q.any fun m => m.fifoGroup = some g then q.takeWhile fun m => m.fifoGroup ≠ some g
  else q.take (maxAttempts % q.length)

/-- The group's first message is in reach, and every other group is passed as a whole or not at all. -/
def Harmless (g : String) (q : List (QueueMessage π)) : Prop :=
  ((∃ m ∈ q, m.fifoGroup = some g) → (passed g q).length < maxAttempts) ∧
    Apart (passed g q) (q.drop (passed g q).length)

theorem Apart.ofGroup_comm {p r : List (QueueMessage π)} (h : Apart p r) (g : String) :
    ofGroup g (r ++ p) = ofGroup g (p ++ r) := by
  rw [ofGroup_append, ofGroup_append]
  -- The group has no messages on one of the two sides.
  rcases hp : ofGroup g p with _ | ⟨a, p'⟩
  · simp
  · have ha : a ∈ ofGroup g p := by simp [hp]
    have hr : ofGroup g r = [] := by
      refine List.filter_eq_nil_iff.mpr fun b hb hgroup => ?_
      obtain ⟨hmem, hga⟩ := List.mem_filter.mp ha
      exact h a hmem b hb ((of_decide_eq_true hga).trans (of_decide_eq_true hgroup).symm)
    simp [hr]

/-- What a harmless dequeue does to the groups of a queue in which every message has one. -/
inductive Dequeued (g : String) (q : List (QueueMessage π)) :
    Option (QueueMessage π) → List (QueueMessage π) → Prop where
  | some {m q'} (own : ofGroup g q = m :: ofGroup g q')
      (others : ∀ h, h ≠ g → ofGroup h q' = ofGroup h q) : Dequeued g q (some m) q'
  | none {q'} (own : ofGroup g q = []) (others : ∀ h, ofGroup h q' = ofGroup h q) :
      Dequeued g q none q'

variable {q : List (QueueMessage π)} {g : String} {ms : List (QueueMessage π)}

/-- A queue splits at the first message of the group. -/
theorem exists_first (h : ∃ m ∈ q, m.fifoGroup = some g) :
    ∃ p m r, q = p ++ m :: r ∧ passed g q = p ∧ (∀ a ∈ p, a.fifoGroup ≠ some g) ∧
      m.fifoGroup = some g := by
  have hpassed : passed g q = q.takeWhile fun m => m.fifoGroup ≠ some g :=
    if_pos (by simpa using h)
  rw [hpassed]
  clear hpassed
  induction q with
  | nil =>
    obtain ⟨m, hm, -⟩ := h
    cases hm
  | cons a q ih =>
    by_cases ha : a.fifoGroup = some g
    · exact ⟨[], a, q, rfl, by simp [ha], by simp, ha⟩
    · obtain ⟨p, m, r, rfl, hp, hpassed, hm⟩ := ih (by simpa [ha] using h)
      refine ⟨a :: p, m, r, rfl, ?_, List.forall_mem_cons.mpr ⟨ha, hpassed⟩, hm⟩
      rw [List.takeWhile_cons_of_pos (by simpa using ha), hp]

theorem dequeueLoop_harmless (hgrouped : ∀ m ∈ q, m.fifoGroup.isSome) (h : Harmless g q) :
    Dequeued g q (dequeueLoop g maxAttempts q).1 (dequeueLoop g maxAttempts q).2 := by
  have hother {a : QueueMessage π} (ha : a ∈ q) (hne : a.fifoGroup ≠ some g) :
      ∃ g', a.fifoGroup = some g' ∧ g' ≠ g := by
    obtain ⟨g', hg'⟩ := Option.isSome_iff_exists.mp (hgrouped a ha)
    exact ⟨g', hg', fun heq => hne (hg'.trans (by rw [heq]))⟩
  obtain ⟨hlt, hapart⟩ := h
  by_cases hany : ∃ m ∈ q, m.fifoGroup = some g
  · replace hlt := hlt hany
    obtain ⟨p, m, r, rfl, hp, hpassed, hm⟩ := exists_first hany
    rw [hp] at hlt hapart
    rw [dequeueLoop_found (fun a ha => hother (List.mem_append_left _ ha) (hpassed a ha)) hm hlt]
    have hnone : ofGroup g p = [] :=
      List.filter_eq_nil_iff.mpr fun a ha => by simpa using hpassed a ha
    have hr : Apart p r := by
      intro a ha b hb
      refine hapart a ha b ?_
      rw [List.drop_left' rfl]
      exact List.mem_cons_of_mem m hb
    refine .some ?_ fun h hne => ?_
    · rw [ofGroup_append, ofGroup_append, hnone, List.append_nil, List.nil_append]
      exact List.filter_cons_of_pos (decide_eq_true hm)
    · rw [hr.ofGroup_comm, ofGroup_append, ofGroup_append]
      congr 1
      refine (List.filter_cons_of_neg ?_).symm
      simpa [hm] using Ne.symm hne
  · have hnone : ∀ a ∈ q, a.fifoGroup ≠ some g := fun a ha hga => hany ⟨a, ha, hga⟩
    have hpassed : passed g q = q.take (maxAttempts % q.length) :=
      if_neg (by simpa using hnone)
    have hdrop : q.drop (passed g q).length = q.drop (maxAttempts % q.length) := by
      rcases q with _ | ⟨a, q⟩
      · simp
      · rw [hpassed, List.length_take_of_le (Nat.mod_lt _ (Nat.succ_pos _)).le]
    rw [hdrop, hpassed] at hapart
    rw [dequeueLoop_none fun a ha => hother ha (hnone a ha)]
    refine .none (List.filter_eq_nil_iff.mpr fun a ha => by simpa using hnone a ha) fun h => ?_
    rw [List.rotate_eq_drop_append_take_mod, hapart.ofGroup_comm, List.take_append_drop]

/-! ## Runs -/

/-- What was accepted, with the timestamp it was given its number at, and what was returned to whom. -/
structure History (π : Type) where
  accepted : List (QueueMessage π × UInt64)
  returned : List (String × QueueMessage π)

/-- The messages that a call has put into the queue, with their timestamps. -/
def accepts (clock : ℕ → ℤ) (s s' : Wrapper π) : List (QueueMessage π × UInt64) :=
  (s'.queue.drop s.queue.length).mapIdx fun i m => (m, timestamp (clock i))

def History.note (h : History π) (s : Wrapper π) (c : Call π) (s' : Wrapper π) : History π :=
  match c with
  | .enqueueFifo _ now => { h with accepted := h.accepted ++ accepts (fun _ => now) s s' }
  | .enqueueFifoBatch _ clock => { h with accepted := h.accepted ++ accepts clock s s' }
  | .dequeueFromGroup g =>
    match (dequeueFromGroup s g).1 with
    | some m => { h with returned := h.returned ++ [(g, m)] }
    | none => h

/-- The accepted messages of a group. -/
def History.acceptedOf (h : History π) (g : String) : List (QueueMessage π) :=
  ofGroup g (h.accepted.map (·.1))

/-- What `dequeue_from_group` has returned for a group. -/
def History.returnedTo (h : History π) (g : String) : List (QueueMessage π) :=
  (h.returned.filter (·.1 = g)).map (·.2)

/-- Where the calls lead from an empty queue. -/
def reached (e : Hasher π) (cfg : FifoQueueConfig) (calls : List (Call π)) :
    Wrapper π × History π :=
  run (withHistory (Wrapper.step e cfg) History.note) (Wrapper.new π, ⟨[], []⟩) calls

/-! ## When the numbers grow -/

/-- The second timestamp is later, and adding the hash does not wrap between the two. -/
def Later (e : Hasher π) (g : String) (t t' : UInt64) : Prop :=
  t < t' ∧ ¬ (t.toNat + (e.hash g).toNat < 2 ^ 64 ∧ 2 ^ 64 ≤ t'.toNat + (e.hash g).toNat)

theorem Later.add_lt {t t' : UInt64} (h : Later e g t t') : t + e.hash g < t' + e.hash g := by
  obtain ⟨hlt, hwrap⟩ := h
  rw [UInt64.lt_iff_toNat_lt] at hlt ⊢
  rw [UInt64.toNat_add, UInt64.toNat_add]
  have := t'.toNat_lt
  have := (e.hash g).toNat_lt
  omega

/-- The groups of messages that are enqueued one after the other, with their timestamps. -/
def readingsOf (ms : List (QueueMessage π)) (clock : ℕ → ℤ) : List (String × UInt64) :=
  ms.mapIdx fun i m => (m.group, timestamp (clock i))

/-- The groups and timestamps of what was accepted. -/
def History.readings (h : History π) : List (String × UInt64) :=
  h.accepted.map fun a => (a.1.group, a.2)

/-- Within each group the timestamps are later and later. -/
def Ticks (e : Hasher π) (rs : List (String × UInt64)) : Prop :=
  rs.Pairwise fun x y => x.1 = y.1 → Later e x.1 x.2 y.2

/-- The call keeps the order: the clock goes on between two messages of a group, and a dequeue is
harmless. -/
def Orderly (e : Hasher π) (p : Wrapper π × History π) : Call π → Prop
  | .enqueueFifo m now => Ticks e (p.2.readings ++ [(m.group, timestamp now)])
  | .enqueueFifoBatch ms clock => Ticks e (p.2.readings ++ readingsOf (sortByGroup ms) clock)
  | .dequeueFromGroup g => Harmless g p.1.queue

/-! ## The invariant -/

/-- What was accepted of a group is what was returned of it and what is left, in this order; every
accepted message carries its number. -/
structure Ordered (e : Hasher π) (p : Wrapper π × History π) : Prop where
  grouped : ∀ m ∈ p.1.queue, m.fifoGroup.isSome
  order : ∀ g, p.2.acceptedOf g = p.2.returnedTo g ++ ofGroup g p.1.queue
  numbered : ∀ a ∈ p.2.accepted, a.1.fifoGroup = some a.1.group ∧
    a.1.attributes.lookup "fifo_sequence" = some (toString (a.2 + e.hash a.1.group).toNat)
  ticks : Ticks e p.2.readings

theorem ordered_new : Ordered e (Wrapper.new π, ⟨[], []⟩) where
  grouped m h := by cases h
  order g := rfl
  numbered a h := by cases h
  ticks := .nil

variable {α β : Type}

theorem map_mapIdx {γ : Type} (f : ℕ → α → β) (g : β → γ) (l : List α) :
    (l.mapIdx f).map g = l.mapIdx fun i a => g (f i a) := by
  apply List.ext_getElem <;> simp

theorem take_mapIdx (f : ℕ → α → β) (n : ℕ) (l : List α) :
    (l.mapIdx f).take n = (l.take n).mapIdx f := by
  apply List.ext_getElem <;> simp

variable {s' : Wrapper π} {clock : ℕ → ℤ}

theorem accepts_eq
    (h : s'.queue = s.queue ++ ms.mapIdx fun i m => withFifoMetadata e cfg m (clock i)) :
    accepts clock s s' =
      ms.mapIdx fun i m => (withFifoMetadata e cfg m (clock i), timestamp (clock i)) := by
  rw [accepts, h, List.drop_left' rfl, List.mapIdx_mapIdx]
  rfl

variable {h : History π}

theorem Ordered.enqueue (ho : Ordered e (s, h))
    {n : ℕ}
    (hqueue : s'.queue =
      s.queue ++ (ms.take n).mapIdx fun i m => withFifoMetadata e cfg m (clock i))
    (hticks : Ticks e (h.readings ++ readingsOf ms clock)) :
    Ordered e (s', { h with accepted := h.accepted ++ accepts clock s s' }) := by
  have haccepts := accepts_eq hqueue
  constructor
  case grouped =>
    intro m hm
    rw [hqueue] at hm
    rcases List.mem_append.mp hm with hm | hm
    · exact ho.grouped m hm
    · obtain ⟨i, hi, rfl⟩ := List.mem_mapIdx.mp hm
      simp
  case order =>
    intro g
    have hsame : (accepts clock s s').map (·.1) = s'.queue.drop s.queue.length := by
      rw [haccepts, hqueue, List.drop_left' rfl, map_mapIdx]
    have horder := ho.order g
    simp only [History.acceptedOf, History.returnedTo] at horder ⊢
    rw [List.map_append, ofGroup_append, horder, hsame, List.append_assoc, ← ofGroup_append]
    conv_rhs => rw [hqueue]
    rw [hqueue, List.drop_left' rfl]
  case numbered =>
    -- Every message that is new carries the number of its reading.
    intro a ha
    rcases List.mem_append.mp ha with ha | ha
    · exact ho.numbered a ha
    · rw [haccepts] at ha
      obtain ⟨i, hi, rfl⟩ := List.mem_mapIdx.mp ha
      exact ⟨fifoGroup_withFifoMetadata .., fifoSequence_withFifoMetadata ..⟩
  case ticks =>
    have hreadings : (accepts clock s s').map (fun a => (a.1.group, a.2)) =
        (readingsOf ms clock).take n := by
      rw [haccepts, map_mapIdx, readingsOf, take_mapIdx]
      rfl
    refine hticks.sublist ?_
    rw [History.readings, List.map_append, hreadings]
    exact (List.Sublist.refl _).append (List.take_sublist _ _)

/-- A dequeue adds nothing to the queue. -/
theorem dequeueLoop_subset {attempts : ℕ} {m : QueueMessage π}
    (h : m ∈ (dequeueLoop g attempts q).2) : m ∈ q := by
  induction attempts generalizing q with
  | zero => exact h
  | succ attempts ih =>
    cases q with
    | nil => exact h
    | cons a q =>
      unfold dequeueLoop at h
      split at h
      · split at h
        · exact List.mem_cons_of_mem a h
        · have := ih h
          simpa [or_comm] using this
      · exact List.mem_cons_of_mem a h

theorem Ordered.dequeue (ho : Ordered e (s, h)) (hharmless : Harmless g s.queue) :
    Ordered e ((dequeueFromGroup s g).2,
      h.note s (.dequeueFromGroup g) (dequeueFromGroup s g).2) := by
  have hdequeued := dequeueLoop_harmless ho.grouped hharmless
  have hgrouped : ∀ m ∈ (dequeueLoop g maxAttempts s.queue).2, m.fifoGroup.isSome :=
    fun m hm => ho.grouped m (dequeueLoop_subset hm)
  simp only [History.note, dequeueFromGroup]
  generalize dequeueLoop g maxAttempts s.queue = result at hdequeued hgrouped ⊢
  obtain ⟨found, q'⟩ := result
  cases hdequeued with
  | some own others =>
    refine ⟨hgrouped, fun g' => ?_, ho.numbered, ho.ticks⟩
    have horder := ho.order g'
    simp only [History.acceptedOf, History.returnedTo] at horder ⊢
    by_cases hg : g' = g
    · subst hg
      simp [horder, own]
    · simp [horder, others g' hg, Ne.symm hg]
  | none own others =>
    refine ⟨hgrouped, fun g' => ?_, ho.numbered, ho.ticks⟩
    rw [ho.order g']
    simp [others g', History.returnedTo]

variable {p : Wrapper π × History π}

variable {c : Call π}

theorem Ordered.step (ho : Ordered e p) (hc : Orderly e p c) :
    Ordered e (withHistory (Wrapper.step e cfg) History.note p c) := by
  cases c with
  | enqueueFifo m now =>
    have hqueue : ∃ n, (enqueueFifo e cfg p.1 m now).2.queue =
        p.1.queue ++ ([m].take n).mapIdx fun _ m => withFifoMetadata e cfg m now := by
      rcases enqueueFifo_spec e cfg p.1 m now with ⟨err, h⟩ | ⟨s', h, hqueue⟩
      · exact ⟨0, by simp [h]⟩
      · exact ⟨1, by simp [h, hqueue]⟩
    obtain ⟨n, hqueue⟩ := hqueue
    exact ho.enqueue hqueue hc
  | enqueueFifoBatch ms clock =>
    obtain ⟨n, hqueue⟩ := enqueueFifoBatch_queue e cfg p.1 ms clock
    exact ho.enqueue hqueue hc
  | dequeueFromGroup g => exact ho.dequeue hc

/-! ## The order over runs -/

/-- The number of the first message is less than that of the second. -/
def SequenceLt (a b : QueueMessage π) : Prop :=
  ∃ x y : ℕ, a.attributes.lookup "fifo_sequence" = some (toString x) ∧
    b.attributes.lookup "fifo_sequence" = some (toString y) ∧ x < y

/-- A dequeue that returns nothing finds that everything accepted of the group was returned. -/
def NoneLeft (p : Wrapper π × History π) (c : Call π) : Prop :=
  ∀ g, c = .dequeueFromGroup g → (dequeueFromGroup p.1 g).1 = none →
    p.2.acceptedOf g = p.2.returnedTo g

/-- A batch accepts of each group the first few messages, in their order. -/
def BatchInOrder (e : Hasher π) (cfg : FifoQueueConfig) (s : Wrapper π) (c : Call π) : Prop :=
  ∀ ms clock, c = .enqueueFifoBatch ms clock → ∀ g,
    ∃ n, (ofGroup g ((s.step e cfg c).queue.drop s.queue.length)).map (·.id) =
      ((ms.filter (·.group = g)).take n).map (·.id)

theorem Ordered.sequenceLt (ho : Ordered e p) (g : String) :
    (p.2.acceptedOf g).Pairwise SequenceLt := by
  rw [History.acceptedOf, ofGroup, List.pairwise_filter, List.pairwise_map]
  have hticks := List.pairwise_map.mp ho.ticks
  refine hticks.imp_of_mem ?_
  intro a b ha hb hlater hga hgb
  obtain ⟨hgroup, hnumber⟩ := ho.numbered a ha
  obtain ⟨hgroup', hnumber'⟩ := ho.numbered b hb
  have hsame : a.1.group = b.1.group := by
    have := (of_decide_eq_true hga).trans (of_decide_eq_true hgb).symm
    rw [hgroup, hgroup'] at this
    exact Option.some.inj this
  refine ⟨_, _, hnumber, hnumber', ?_⟩
  rw [← hsame]
  exact UInt64.lt_iff_toNat_lt.mp (hlater hsame).add_lt

theorem Ordered.noneLeft (ho : Ordered e p) (hc : Orderly e p c) : NoneLeft p c := by
  rintro g rfl hnone
  have hdequeued := dequeueLoop_harmless ho.grouped hc
  rw [show (dequeueLoop g maxAttempts p.1.queue).1 = none from hnone] at hdequeued
  cases hdequeued with
  | none own others => rw [ho.order g, own, List.append_nil]

/-- The messages of a group among those of a batch, by their ids. -/
theorem ofGroup_mapIdx (e : Hasher π) (cfg : FifoQueueConfig) (g : String)
    (ms : List (QueueMessage π)) (clock : ℕ → ℤ) :
    (ofGroup g (ms.mapIdx fun i m => withFifoMetadata e cfg m (clock i))).map (·.id) =
      (ms.filter (·.group = g)).map (·.id) := by
  induction ms generalizing clock with
  | nil => rfl
  | cons m ms ih =>
    have hrest := ih fun i => clock (i + 1)
    rw [ofGroup] at hrest ⊢
    rw [List.mapIdx_cons, List.filter_cons, List.filter_cons, fifoGroup_withFifoMetadata]
    by_cases hg : m.group = g
    · simpa [hg, withFifoMetadata] using hrest
    · simpa [hg] using hrest

theorem batchInOrder (e : Hasher π) (cfg : FifoQueueConfig) (s : Wrapper π) (c : Call π) :
    BatchInOrder e cfg s c := by
  rintro ms clock rfl g
  obtain ⟨n, hqueue⟩ := enqueueFifoBatch_queue e cfg s ms clock
  refine ⟨(((sortByGroup ms).take n).filter (·.group = g)).length, ?_⟩
  rw [show (s.step e cfg (.enqueueFifoBatch ms clock)).queue = _ from hqueue, List.drop_left' rfl,
    ofGroup_mapIdx]
  have htaken := List.take_prefix n (sortByGroup ms)
  have hprefix := htaken.filter (·.group = g)
  rw [filter_sortByGroup] at hprefix
  rw [← List.prefix_iff_eq_take.mp hprefix]

/-- In a run whose clock goes on between two messages of a group and whose dequeues are harmless, each
group is returned in the order it was accepted in, each message once, and a dequeue returns nothing only
when nothing of the group is left; the numbers of a group grow in this order. -/
theorem fifo_per_group (e : Hasher π) (cfg : FifoQueueConfig) {calls : List (Call π)}
    (h : Along (withHistory (Wrapper.step e cfg) History.note) (Orderly e) (Wrapper.new π, ⟨[], []⟩)
      calls) :
    (∀ g, (reached e cfg calls).2.acceptedOf g =
        (reached e cfg calls).2.returnedTo g ++ ofGroup g (reached e cfg calls).1.queue) ∧
      (∀ g, ((reached e cfg calls).2.acceptedOf g).Pairwise SequenceLt) ∧
      Along (withHistory (Wrapper.step e cfg) History.note)
        (fun p c => NoneLeft p c ∧ BatchInOrder e cfg p.1 c) (Wrapper.new π, ⟨[], []⟩) calls := by
  have hordered : Ordered e (reached e cfg calls) :=
    invariant_along _ (fun _ _ ho hc => ho.step hc) ordered_new h
  refine ⟨hordered.order, hordered.sequenceLt, ?_⟩
  exact along_of_invariant (I := Ordered e) _ (fun _ _ ho hc => ho.step hc)
    (fun p c ho hc => ⟨ho.noneLeft hc, batchInOrder e cfg p.1 c⟩) ordered_new h

/-! ## Runs of two groups -/

/-- The hashes of two groups. -/
def sipHash : Hasher Unit where
  hash g := if g = "a" then 8186225505942432243 else 16993177596579750922
  render _ := "null"

def defaultConfig : FifoQueueConfig := ⟨true, false⟩

def message (group id : String) : QueueMessage Unit := ⟨id, (), ∅, some group, some id⟩

instance (g : String) (t t' : UInt64) : Decidable (Later e g t t') := by
  unfold Later
  infer_instance

instance (rs : List (String × UInt64)) : Decidable (Ticks e rs) := by
  unfold Ticks
  infer_instance

instance (g : String) (q : List (QueueMessage π)) : Decidable (Harmless g q) := by
  unfold Harmless Apart
  infer_instance

instance (p : Wrapper π × History π) : ∀ c, Decidable (Orderly e p c)
  | .enqueueFifo _ _ => inferInstanceAs (Decidable (Ticks e _))
  | .enqueueFifoBatch _ _ => inferInstanceAs (Decidable (Ticks e _))
  | .dequeueFromGroup g => inferInstanceAs (Decidable (Harmless g _))

/-- Two groups in turn: each dequeue passes the whole of the other group, or none of it. -/
def inTurn : List (Call Unit) :=
  [.enqueueFifo (message "a" "a1") 1, .enqueueFifoBatch [message "b" "b1", message "a" "a2"] (2 + ·),
    .dequeueFromGroup "b", .dequeueFromGroup "b", .dequeueFromGroup "a", .dequeueFromGroup "a"]

theorem fifo_per_group_inTurn :
    (∀ g, (reached sipHash defaultConfig inTurn).2.acceptedOf g =
        (reached sipHash defaultConfig inTurn).2.returnedTo g ++
          ofGroup g (reached sipHash defaultConfig inTurn).1.queue) ∧
      (∀ g, ((reached sipHash defaultConfig inTurn).2.acceptedOf g).Pairwise SequenceLt) ∧
      Along (withHistory (Wrapper.step sipHash defaultConfig) History.note)
        (fun p c => NoneLeft p c ∧ BatchInOrder sipHash defaultConfig p.1 c)
        (Wrapper.new Unit, ⟨[], []⟩) inTurn :=
  fifo_per_group sipHash defaultConfig (by decide +kernel)

/-- The second group's dequeue puts the first message of the first group behind its second one. -/
def overtaken : List (Call Unit) :=
  [.enqueueFifo (message "a" "a1") 1, .enqueueFifo (message "b" "b1") 2,
    .enqueueFifo (message "a" "a2") 3, .dequeueFromGroup "b", .dequeueFromGroup "a"]

/-- A message with as many messages of another group before it as a dequeue has attempts. -/
def outOfReach : List (Call Unit) :=
  (List.range 50).map (fun n => .enqueueFifo (message "a" (toString n)) n) ++
    [.enqueueFifo (message "b" "b1") 50]

/-- Two messages of a group at one reading of the clock. -/
def sameInstant : List (Call Unit) :=
  [.enqueueFifo (message "a" "a1") 1, .enqueueFifo (message "a" "a2") 1]

/-- A group is returned out of order, nothing is returned of a group that has a message, and two
messages of a group have the same number. -/
theorem not_fifo_per_group :
    (((reached sipHash defaultConfig overtaken).2.acceptedOf "a").map (·.id) = ["a1", "a2"] ∧
      ((reached sipHash defaultConfig overtaken).2.returnedTo "a").map (·.id) = ["a2"]) ∧
    ((dequeueFromGroup (reached sipHash defaultConfig outOfReach).1 "b").1.isNone ∧
      (ofGroup "b" (reached sipHash defaultConfig outOfReach).1.queue).map (·.id) = ["b1"]) ∧
    ((reached sipHash defaultConfig sameInstant).2.acceptedOf "a").map
      (·.attributes.lookup "fifo_sequence") =
        [some "8186225505942432244", some "8186225505942432244"] := by
  decide +kernel

end Backbone.Queue.Fifo
