import Mathlib.Data.String.Basic
import Backbone.Queue.RedisCalls

/-!
# Which message a dequeue returns

A message becomes available when it is visible, and of the available messages that have not expired
the one of the highest priority is to come first, the earliest visible of a priority before the
others. The queue keeps one number for both, `priority * 1000000 + visible_at` in milliseconds, and
compares it with the time: a message is found that many milliseconds late, a low priority before a
high one, and whether it has expired is not asked.

Reference: `backbone-queue/src/redis.rs` and `backbone-queue/src/types.rs`.
-/

namespace Backbone.Queue.Redis

variable {π : Type} (ms : List (QueueMessage π)) (now : ℤ)

namespace QueueMessage

/-- `is_expired`, of a clock that shows `now`; `expires_at` is one of the fields that no operation of
the queue reads. -/
def isExpired (expiresAt : π → Option ℤ) (m : QueueMessage π) (now : ℤ) : Bool :=
  (expiresAt m.payload).any (· < now)

/-- `is_visible`. -/
def isVisible (m : QueueMessage π) (now : ℤ) : Bool := m.visibleAt ≤ now

/-- A dequeue may return the message. -/
def Available (expiresAt : π → Option ℤ) (now : ℤ) (m : QueueMessage π) : Prop :=
  m.isVisible now = true ∧ m.isExpired expiresAt now = false

instance (expiresAt : π → Option ℤ) (now : ℤ) (m : QueueMessage π) :
    Decidable (m.Available expiresAt now) :=
  inferInstanceAs (Decidable (_ ∧ _))

/-- The score has come. -/
def Due (now : ℤ) (m : QueueMessage π) : Prop := m.score ≤ millis now

instance (now : ℤ) (m : QueueMessage π) : Decidable (m.Due now) :=
  inferInstanceAs (Decidable (_ ≤ _))

end QueueMessage

/-- The messages in the queue. -/
def Store.queued (s : Store π) : List (QueueMessage π) := (s.sets .queue).map (·.1)

/-- A queue of these messages. -/
def storeOf (ms : List (QueueMessage π)) (now : ℤ) : Store π :=
  ⟨fun place => if place = .queue then ms.map fun m => (m, m.score) else [], now⟩

section Claims

variable (expiresAt : π → Option ℤ) (s : Store π)

/-- The message that is to come next. -/
structure Best (b : QueueMessage π) : Prop where
  mem : b ∈ s.queued
  available : b.Available expiresAt s.clock
  priority : ∀ m ∈ s.queued, m.Available expiresAt s.clock → m.priority.value ≤ b.priority.value
  earliest : ∀ m ∈ s.queued, m.Available expiresAt s.clock → m.priority = b.priority →
    b.visibleAt ≤ m.visibleAt

/-- What a dequeue is to answer. -/
structure Right (answer : Option (QueueMessage π)) : Prop where
  none_iff : answer = none ↔ ∀ m ∈ s.queued, ¬ m.Available expiresAt s.clock
  best : ∀ b, answer = some b → Best expiresAt s b

/-- No message is available and none is due, or the one that is to come next is due and its score is
the least of the queue, of two equal ones that of the smaller text. -/
def InOrder (text : QueueMessage π → String) : Prop :=
  (∀ m ∈ s.queued, ¬ m.Available expiresAt s.clock ∧ ¬ m.Due s.clock) ∨
    ∃ b, Best expiresAt s b ∧ b.Due s.clock ∧
      ∀ m ∈ s.queued, ZSet.order text (b, b.score) (m, m.score) = true

end Claims

/-! ## Scores -/

/-- Every member has its own score. -/
def Scored (z : ZSet π) : Prop := ∀ e ∈ z, e.2 = e.1.score

section Scored

variable [DecidableEq π] {text : QueueMessage π → String}

end Scored

/-! ## The message that is found -/

section Found

variable {text : QueueMessage π → String} {z : ZSet π} {a b : QueueMessage π × ℤ}

theorem order_total (a b : QueueMessage π × ℤ) :
    ZSet.order text a b = true ∨ ZSet.order text b a = true := by
  simp only [ZSet.order, Bool.or_eq_true, Bool.and_eq_true, decide_eq_true_eq]
  rcases lt_trichotomy a.2 b.2 with h | h | h
  · exact .inl (.inl h)
  · exact (le_total (text a.1) (text b.1)).imp (fun hle => .inr ⟨h, hle⟩)
      fun hle => .inr ⟨h.symm, hle⟩
  · exact .inr (.inl h)

theorem order_trans {c : QueueMessage π × ℤ} (hab : ZSet.order text a b = true)
    (hbc : ZSet.order text b c = true) : ZSet.order text a c = true := by
  simp only [ZSet.order, Bool.or_eq_true, Bool.and_eq_true, decide_eq_true_eq] at *
  rcases hab with hab | ⟨hab, htext⟩
  · exact .inl (hbc.elim hab.trans fun h => h.1 ▸ hab)
  · rcases hbc with hbc | ⟨hbc, htext'⟩
    · exact .inl (hab ▸ hbc)
    · exact .inr ⟨hab.trans hbc, htext.trans htext'⟩

theorem order_antisymm (hab : ZSet.order text a b = true)
    (hba : ZSet.order text b a = true) : a.2 = b.2 ∧ text a.1 = text b.1 := by
  simp only [ZSet.order, Bool.or_eq_true, Bool.and_eq_true, decide_eq_true_eq] at *
  rcases hab with hab | ⟨hab, htext⟩
  · rcases hba with hba | ⟨hba, -⟩ <;> omega
  · rcases hba with hba | ⟨-, htext'⟩
    · omega
    · exact ⟨hab, le_antisymm htext htext'⟩

/-- What is found is the first of the members up to the bound. -/
theorem head_zrangebyscore {max : ℤ} :
    ((z.zrangebyscore text max 1).head? = none ↔ ∀ e ∈ z, max < e.2) ∧
      ∀ b, (z.zrangebyscore text max 1).head? = some b →
        ∃ score, (b, score) ∈ z ∧ score ≤ max ∧ ∀ e ∈ z, ZSet.order text (b, score) e = true := by
  let r : QueueMessage π × ℤ → QueueMessage π × ℤ → Prop := fun a b => ZSet.order text a b = true
  have : Std.Total r := ⟨order_total⟩
  have : IsTrans _ r := ⟨fun _ _ _ => order_trans⟩
  have hhead : (z.zrangebyscore text max 1).head? =
      (((z.filter (·.2 ≤ max)).insertionSort r).head?).map (·.1) := by
    rw [ZSet.zrangebyscore, List.head?_take, if_neg one_ne_zero, ZSet.zrange, List.head?_map]
  rw [hhead]
  constructor
  · rw [Option.map_eq_none_iff, List.head?_eq_none_iff, ← List.length_eq_zero_iff,
      List.length_insertionSort, List.length_eq_zero_iff, List.filter_eq_nil_iff]
    simp
  · intro b hb
    obtain ⟨e, he, rfl⟩ := Option.map_eq_some_iff.mp hb
    have hsorted := List.pairwise_insertionSort r (z.filter (·.2 ≤ max))
    obtain ⟨rest, hrest⟩ : ∃ rest, (z.filter (·.2 ≤ max)).insertionSort r = e :: rest := by
      cases h : (z.filter (·.2 ≤ max)).insertionSort r with
      | nil => simp [h] at he
      | cons e' rest =>
        rw [h] at he
        cases he
        exact ⟨rest, rfl⟩
    have hmem : e ∈ z.filter (·.2 ≤ max) :=
      (List.mem_insertionSort r).mp (hrest ▸ List.mem_cons_self)
    obtain ⟨hez, hmax⟩ := List.mem_filter.mp hmem
    have hmax : e.2 ≤ max := of_decide_eq_true hmax
    refine ⟨e.2, hez, hmax, fun e' he' => ?_⟩
    by_cases hdue : e'.2 ≤ max
    · have he' : e' ∈ e :: rest :=
        hrest ▸ (List.mem_insertionSort r).mpr (List.mem_filter.mpr ⟨he', decide_eq_true hdue⟩)
      rcases List.mem_cons.mp he' with rfl | he'
      · exact (order_total _ _).elim id id
      · rw [hrest] at hsorted
        exact (List.pairwise_cons.mp hsorted).1 e' he'
    · -- What is behind the bound is behind what is found.
      simp only [ZSet.order, Bool.or_eq_true, decide_eq_true_eq]
      exact .inl (by omega)

end Found

/-! ## Dequeues -/

section Dequeues

variable {text : QueueMessage π → String} {expiresAt : π → Option ℤ} {s : Store π}

theorem mem_queued {m : QueueMessage π} (hscored : Scored (s.sets .queue)) :
    m ∈ s.queued ↔ (m, m.score) ∈ s.sets .queue := by
  constructor
  · intro h
    obtain ⟨e, he, rfl⟩ := List.mem_map.mp h
    rw [← hscored e he]
    exact he
  · exact fun h => List.mem_map.mpr ⟨_, h, rfl⟩

/-- Nothing is found when nothing is due, and otherwise the first of the queue by its score. -/
theorem dequeued_spec (hscored : Scored (s.sets .queue)) :
    (s.dequeued text = none ↔ ∀ m ∈ s.queued, ¬ m.Due s.clock) ∧
      ∀ b, s.dequeued text = some b → b ∈ s.queued ∧ b.Due s.clock ∧
        ∀ m ∈ s.queued, ZSet.order text (b, b.score) (m, m.score) = true := by
  have hdequeued : s.dequeued text =
      ((s.sets .queue).zrangebyscore text (QueueMessage.millis s.clock) 1).head? := by
    simp only [Store.dequeued, Store.finds, World.finds, min_self]
  rw [hdequeued]
  obtain ⟨hnone, hsome⟩ := @head_zrangebyscore π text (s.sets .queue) (QueueMessage.millis s.clock)
  constructor
  · rw [hnone]
    constructor
    · intro h m hm
      exact not_le.mpr (h _ ((mem_queued hscored).mp hm))
    · intro h e he
      have := h e.1 (List.mem_map_of_mem he)
      rw [hscored e he]
      exact not_le.mp this
  · intro b hb
    obtain ⟨score, hmem, hmax, hfirst⟩ := hsome b hb
    have hscore : score = b.score := hscored _ hmem
    subst hscore
    exact ⟨(mem_queued hscored).mpr hmem, hmax, fun m hm => hfirst _ ((mem_queued hscored).mp hm)⟩

/-- A dequeue answers right exactly when no message is available and none is due, or the message
that is to come next is due and has the least score. -/
theorem dequeued_right_iff (text : QueueMessage π → String) (expiresAt : π → Option ℤ) (s : Store π)
    (hscored : Scored (s.sets .queue))
    (htext : ∀ a ∈ s.queued, ∀ b ∈ s.queued, text a = text b → a = b) :
    Right expiresAt s (s.dequeued text) ↔ InOrder expiresAt s text := by
  obtain ⟨hnone, hsome⟩ := @dequeued_spec π text s hscored
  constructor
  · intro hright
    cases hanswer : s.dequeued text with
    | none => exact .inl fun m hm => ⟨hright.none_iff.mp hanswer m hm, hnone.mp hanswer m hm⟩
    | some b =>
      obtain ⟨-, hdue, hfirst⟩ := hsome b hanswer
      exact .inr ⟨b, hright.best b hanswer, hdue, hfirst⟩
  · rintro (hquiet | ⟨b, hbest, hdue, hfirst⟩)
    · have hanswer := hnone.mpr fun m hm => (hquiet m hm).2
      refine ⟨iff_of_true hanswer fun m hm => (hquiet m hm).1, fun b hb => ?_⟩
      rw [hanswer] at hb
      cases hb
    · obtain ⟨c, hc⟩ := Option.ne_none_iff_exists'.mp fun h => hnone.mp h b hbest.mem hdue
      obtain ⟨hmem, -, hfirst'⟩ := hsome c hc
      -- Two messages in front of each other have one text.
      have heq := htext c hmem b hbest.mem (order_antisymm (hfirst' b hbest.mem) (hfirst c hmem)).2
      subst heq
      rw [hc]
      refine ⟨iff_of_false (by simp) fun h => h c hmem hbest.available, fun b hb => ?_⟩
      cases hb
      exact hbest

end Dequeues

theorem queued_storeOf : (storeOf ms now).queued = ms := by
  simp [Store.queued, storeOf, Function.comp_def]

theorem scored_storeOf : Scored ((storeOf ms now).sets .queue) := by
  intro e he
  obtain ⟨m, -, rfl⟩ := List.mem_map.mp he
  rfl

/-- A critical message that is visible from the beginning. -/
def alarm : QueueMessage String := ⟨"m-2", "alarm", .critical, 0, 2, 0, 30, .pending⟩

/-- An order that becomes visible after more than eight hours. -/
def lateOrder : QueueMessage String := { order with visibleAt := 30000000000000 }

theorem dequeued_right_alarm :
    Right (fun _ => none) (storeOf [lateOrder, alarm] 40000000000000)
      ((storeOf [lateOrder, alarm] 40000000000000).dequeued QueueMessage.payload) := by
  refine (dequeued_right_iff _ _ _ (scored_storeOf _ _) ?_).mpr (.inr ⟨alarm, ?_, by decide, ?_⟩)
  · rw [queued_storeOf]
    decide
  · constructor
    · rw [queued_storeOf]
      decide
    · exact ⟨rfl, rfl⟩
    · rw [queued_storeOf]
      exact fun m hm _ => by revert m; decide
    · rw [queued_storeOf]
      exact fun m hm _ _ => by revert m; decide
  · rw [queued_storeOf]
    decide

/-- A message that has just become visible is not found, an order comes before an alarm of the same
age, and one that has expired is returned. -/
theorem dequeued_not_right :
    ¬ Right (fun _ => none) (storeOf [order] 1000000000)
        ((storeOf [order] 1000000000).dequeued QueueMessage.payload) ∧
      ¬ Right (fun _ => none) (storeOf [alarm, order] 40000000000000)
        ((storeOf [alarm, order] 40000000000000).dequeued QueueMessage.payload) ∧
      ¬ Right (fun _ => some 1000000000) (storeOf [order] 40000000000000)
        ((storeOf [order] 40000000000000).dequeued QueueMessage.payload) := by
  have hmem (m : QueueMessage String) (ms : List (QueueMessage String)) (now : ℤ) (hm : m ∈ ms) :
      m ∈ (storeOf ms now).queued := by rwa [queued_storeOf]
  refine ⟨fun h => ?_, fun h => ?_, fun h => ?_⟩
  · exact h.none_iff.mp (by decide) order (hmem _ _ _ (by decide)) ⟨rfl, rfl⟩
  · have := (h.best order (by decide)).priority alarm (hmem _ _ _ (by decide)) ⟨rfl, rfl⟩
    exact absurd this (by decide)
  · exact absurd (h.best order (by decide)).available.2 (by decide)

end Backbone.Queue.Redis
