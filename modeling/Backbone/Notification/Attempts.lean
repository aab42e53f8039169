import Backbone.Notification.Delivered

/-!
# How attempts are counted

The attempts are counted in a map that a call reads before it claims the record and writes after it has
released the claim, so that a call that waited for the claim acts on an old count (`not_counted`). As
long as no call does that, the attempts are counted (`counts_of_serial`).

Reference: `backbone-core/src/notification.rs`.
-/

namespace Backbone.Notification

open Machine
open Workflow (Uuid)

/-- What a relay may expect of the dispatcher. -/
structure Counts (d : NotificationDispatcher) (q : Deliveries × Log) : Prop where
  once : ∀ id, (q.2.histories id).again = false
  numbered : ∀ id k call, (q.2.histories id).calls[k]? = some call →
    call.attempt = k + 1 ∧ k < d.policy.maxAttempts
  spaced : ∀ id, ∀ call ∈ (q.2.histories id).calls, ∀ k t, call.retries[k]? = some t →
    t + d.policy.backoff (k + 1) ≤ call.time
  ok : ∀ i id, q.1.handlers i = some ⟨id, .answered .ok⟩ → d.isRequest id →
    (q.2.histories id).delivered = true
  exhausted : ∀ i id reason, q.1.handlers i = some ⟨id, .answered (.exhausted reason)⟩ →
    d.malformed id ∨ (∃ why k, q.2.outcomes i = some (.reject why, k)) ∨
      ∃ why, q.2.outcomes i = some (.retry why, d.policy.maxAttempts)

/-- The map is to be written after a `Retry` or a `Reject` was rolled back. -/
def Phase.pending : Phase → Bool
  | .retried _ _ | .rejected _ => true
  | _ => false

/-- Whoever is given a claim has read the count that the map holds still, and the map is up to date; a
commit does not fail; and the wait can be added to the clock. -/
def Serial (d : NotificationDispatcher) (q : Deliveries × Log) : Act → Prop
  | .claim i none => ∀ id n, q.1.handlers i = some ⟨id, .claiming n⟩ → q.1.claimed id = none →
      q.1.consumed id = false →
        (madeAt q.1.clock (q.1.retrying id)).map (· + 1) = some n.attempt ∧
          ∀ j phase, q.1.handlers j = some ⟨id, phase⟩ → phase.pending = false
  | .commit i (.failed _) => ∀ id n, q.1.handlers i ≠ some ⟨id, .committing n⟩
  | .write i => ∀ id n reason, q.1.handlers i = some ⟨id, .retried n reason⟩ →
      n.attempt < d.policy.maxAttempts → q.1.clock + d.policy.backoff n.attempt ≤ maxInstant
  | _ => True

variable {d : NotificationDispatcher} {q : Deliveries × Log} {a : Act} {i : ℕ} {id id' : Uuid}
  {s : Slot} {phase : Phase} {n : PendingNotification} {clock' clock : ℕ}
  {outcome : Option (DeliveryOutcome × ℕ)}

/-! ## The invariant -/

/-- The call is between its claim and its write of the map. -/
def Phase.active (phase : Phase) : Bool := phase.holds || phase.pending

/-- The first `m` waits are over. -/
def Waited (d : NotificationDispatcher) (clock : ℕ) (retries : List ℕ) (m : ℕ) : Prop :=
  ∀ k t, k < m → retries[k]? = some t → t + d.policy.backoff (k + 1) ≤ clock

/-- What the map holds when no call is active. -/
structure Idle (d : NotificationDispatcher) (clock : ℕ) (entry : Option Attempts) (h : History) :
    Prop where
  made : (entry.map (·.made)).getD 0 = h.calls.length
  retries : h.retries.length = h.calls.length
  left : h.calls.length < d.policy.maxAttempts
  waits : ∀ k t, h.retries[k]? = some t → t + d.policy.backoff (k + 1) ≤ clock ∨
    ∃ e, entry = some e ∧ t + d.policy.backoff (k + 1) ≤ e.notBefore

/-- Why a call answered `Exhausted`. -/
def Justified (d : NotificationDispatcher) (id : Uuid) (outcome : Option (DeliveryOutcome × ℕ)) : Prop :=
  d.malformed id ∨ (∃ why k, outcome = some (.reject why, k)) ∨
    ∃ why, outcome = some (.retry why, d.policy.maxAttempts)

/-- What holds of a call in each phase. -/
def Standing (d : NotificationDispatcher) (id : Uuid) (clock : ℕ) (h : History)
    (outcome : Option (DeliveryOutcome × ℕ)) : Phase → Prop
  | .calling n => h.calls.length + 1 = n.attempt ∧ h.retries.length + 1 = n.attempt ∧
      n.attempt ≤ d.policy.maxAttempts ∧ Waited d clock h.retries h.retries.length
  | .delivering n | .committing n => h.calls.length = n.attempt ∧
      h.retries.length + 1 = n.attempt ∧ n.attempt ≤ d.policy.maxAttempts ∧
      Waited d clock h.retries h.retries.length
  | .rollingBackRetry n reason | .retried n reason => h.calls.length = n.attempt ∧
      h.retries.length = n.attempt ∧ n.attempt ≤ d.policy.maxAttempts ∧
      Waited d clock h.retries (n.attempt - 1) ∧ outcome = some (.retry reason, n.attempt)
  | .rollingBackReject reason | .rejected reason => ∃ k, outcome = some (.reject reason, k)
  | .answered (.exhausted _) => Justified d id outcome
  | _ => True

/-- The calls are numbered, and each came after the waits before it. -/
def Paced (d : NotificationDispatcher) (h : History) : Prop :=
  ∀ k call, h.calls[k]? = some call → (call.attempt = k + 1 ∧ k < d.policy.maxAttempts) ∧
    ∀ j t, call.retries[j]? = some t → t + d.policy.backoff (j + 1) ≤ call.time

/-- A call for a payload that is no request goes no further. -/
def Phase.early : Phase → Bool
  | .reading | .answered _ => true
  | _ => false

/-- The attempts of the record are counted. -/
structure Counted (d : NotificationDispatcher) (q : Deliveries × Log) (id : Uuid) : Prop where
  sole : ∀ i j phase phase', q.1.handlers i = some ⟨id, phase⟩ →
    q.1.handlers j = some ⟨id, phase'⟩ → phase.active = true → phase'.active = true → i = j
  unconsumed : ∀ i phase, q.1.handlers i = some ⟨id, phase⟩ → phase.active = true →
    q.1.consumed id = false
  idle : q.1.consumed id = false →
    (∀ i phase, q.1.handlers i = some ⟨id, phase⟩ → phase.active = false) →
      Idle d q.1.clock (q.1.retrying id) (q.2.histories id)
  standing : ∀ i phase, q.1.handlers i = some ⟨id, phase⟩ →
    Standing d id q.1.clock (q.2.histories id) (q.2.outcomes i) phase
  paced : Paced d (q.2.histories id)
  past : ∀ t ∈ (q.2.histories id).retries, t ≤ q.1.clock
  malformed : d.malformed id → (q.2.histories id).calls = [] ∧ (q.2.histories id).retries = [] ∧
    ∀ i phase, q.1.handlers i = some ⟨id, phase⟩ → phase.early = true

theorem Counted.init (now : ℕ) : Counted d (Deliveries.init now, Log.empty) id where
  sole i j phase phase' hi := by cases hi
  unconsumed i phase hi := by cases hi
  idle _ _ := ⟨rfl, rfl, d.maxAttempts_pos, fun k t hk => by cases hk⟩
  standing i phase hi := by cases hi
  paced k call hk := by cases hk
  past t ht := by cases ht
  malformed _ := ⟨rfl, rfl, fun i phase hi => by cases hi⟩

theorem Waited.mono {m : ℕ} {retries : List ℕ} (h : Waited d clock retries m)
    (hclock : clock ≤ clock') : Waited d clock' retries m :=
  fun k t hk ht => (h k t hk ht).trans hclock

theorem Idle.mono {entry : Option Attempts} {h : History} (hidle : Idle d clock entry h)
    (hclock : clock ≤ clock') : Idle d clock' entry h where
  made := hidle.made
  retries := hidle.retries
  left := hidle.left
  waits k t ht := (hidle.waits k t ht).imp_left fun hover => hover.trans hclock

theorem Standing.mono {h : History}
    (hstanding : Standing d id clock h outcome phase) (hclock : clock ≤ clock') :
    Standing d id clock' h outcome phase := by
  cases phase with
  | calling n =>
    obtain ⟨hcalls, hretries, hmax, hwaited⟩ := hstanding
    exact ⟨hcalls, hretries, hmax, hwaited.mono hclock⟩
  | delivering n =>
    obtain ⟨hcalls, hretries, hmax, hwaited⟩ := hstanding
    exact ⟨hcalls, hretries, hmax, hwaited.mono hclock⟩
  | committing n =>
    obtain ⟨hcalls, hretries, hmax, hwaited⟩ := hstanding
    exact ⟨hcalls, hretries, hmax, hwaited.mono hclock⟩
  | rollingBackRetry n reason =>
    obtain ⟨hcalls, hretries, hmax, hwaited, houtcome⟩ := hstanding
    exact ⟨hcalls, hretries, hmax, hwaited.mono hclock, houtcome⟩
  | retried n reason =>
    obtain ⟨hcalls, hretries, hmax, hwaited, houtcome⟩ := hstanding
    exact ⟨hcalls, hretries, hmax, hwaited.mono hclock, houtcome⟩
  | answered verdict => cases verdict <;> exact hstanding
  | _ => exact hstanding

/-- What holds of a call that is not active does not depend on the record. -/
theorem Standing.of_inactive {h h' : History}
    (hstanding : Standing d id clock h outcome phase) (hinactive : phase.active = false) :
    Standing d id clock' h' outcome phase := by
  cases phase with
  | answered verdict => cases verdict <;> exact hstanding
  | reading => trivial
  | beginning n => trivial
  | claiming n => trivial
  | unclaimed => trivial
  | settled => trivial
  | panicked => trivial
  | _ => cases hinactive

/-- A step on another record. -/
theorem Counted.frame (h : Counted d q id') (hne : id' ≠ id)
    (hi : ∀ phase, q.1.handlers i ≠ some ⟨id', phase⟩) : Counted d (put q i id s) id' := by
  have hother : ∀ j phase, (put q i id s).1.handlers j = some ⟨id', phase⟩ →
      j ≠ i ∧ q.1.handlers j = some ⟨id', phase⟩ := by
    intro j phase hj
    rcases put_handlers hj with ⟨-, hid, -⟩ | hold
    · exact absurd hid hne
    · exact hold
  obtain ⟨hretrying, hconsumed, -, hhistory⟩ := put_of_ne q i s hne
  constructor
  case sole =>
    intro j k phase phase' hj hk
    exact h.sole j k phase phase' (hother j phase hj).2 (hother k phase' hk).2
  case unconsumed =>
    intro j phase hj hactive
    rw [hconsumed]
    exact h.unconsumed j phase (hother j phase hj).2 hactive
  case idle =>
    intro hunconsumed hinactive
    rw [hretrying, hhistory]
    refine h.idle (hconsumed ▸ hunconsumed) fun j phase hj => ?_
    have hji : j ≠ i := by
      rintro rfl
      exact hi phase hj
    exact hinactive j phase ((Function.update_of_ne hji _ _).trans hj)
  case standing =>
    intro j phase hj
    obtain ⟨hji, hold⟩ := hother j phase hj
    have houtcome : (put q i id s).2.outcomes j = q.2.outcomes j := Function.update_of_ne hji _ _
    rw [hhistory, houtcome]
    exact h.standing j phase hold
  case paced =>
    rw [hhistory]
    exact h.paced
  case past =>
    rw [hhistory]
    exact h.past
  case malformed =>
    intro hmalformed
    obtain ⟨hcalls, hretries, hearly⟩ := h.malformed hmalformed
    rw [hhistory]
    exact ⟨hcalls, hretries, fun j phase hj => hearly j phase (hother j phase hj).2⟩

/-- A step puts its call where it says, and the others stand where they stood. -/
theorem standing_put (hstanding : Standing d id q.1.clock s.history s.outcome s.phase)
    (hothers : ∀ j phase, j ≠ i → q.1.handlers j = some ⟨id, phase⟩ →
      Standing d id q.1.clock s.history (q.2.outcomes j) phase) {j : ℕ}
    (hj : (put q i id s).1.handlers j = some ⟨id, phase⟩) :
    Standing d id q.1.clock s.history ((put q i id s).2.outcomes j) phase := by
  rcases put_handlers hj with ⟨rfl, -, rfl⟩ | ⟨hji, hold⟩
  · simpa [put] using hstanding
  · simpa [put, hji] using hothers j phase hji hold

/-- A step of a call that is not active, before and after. -/
theorem Counted.quiet (h : Counted d q id)
    (hbefore : ∀ phase, q.1.handlers i = some ⟨id, phase⟩ → phase.active = false)
    (hafter : s.phase.active = false) (hconsumed : s.consumed = q.1.consumed id)
    (hentry : s.consumed = false → s.entry = q.1.retrying id)
    (hhistory : s.history = q.2.histories id)
    (hstanding : Standing d id q.1.clock s.history s.outcome s.phase)
    (hearly : d.malformed id → s.phase.early = true) : Counted d (put q i id s) id := by
  obtain ⟨hretrying', hconsumed', -, hhistory'⟩ := put_self q i id s
  rw [hconsumed] at hconsumed'
  rw [hhistory] at hhistory'
  -- Whoever is active was there before.
  have hactive : ∀ j phase, (put q i id s).1.handlers j = some ⟨id, phase⟩ →
      phase.active = true → q.1.handlers j = some ⟨id, phase⟩ := by
    intro j phase hj hactive
    rcases put_handlers hj with ⟨-, -, rfl⟩ | ⟨-, hold⟩
    · rw [hafter] at hactive
      cases hactive
    · exact hold
  constructor
  case sole =>
    intro j k phase phase' hj hk hactive' hactive''
    exact h.sole j k phase phase' (hactive j phase hj hactive') (hactive k phase' hk hactive'')
      hactive' hactive''
  case unconsumed =>
    intro j phase hj hactive'
    rw [hconsumed']
    exact h.unconsumed j phase (hactive j phase hj hactive') hactive'
  case idle =>
    intro hunconsumed hinactive
    rw [hretrying', hhistory', hentry (hconsumed.trans (hconsumed' ▸ hunconsumed))]
    refine h.idle (hconsumed' ▸ hunconsumed) fun j phase hj => ?_
    by_cases hji : j = i
    · subst hji
      exact hbefore phase hj
    · exact hinactive j phase ((Function.update_of_ne hji _ _).trans hj)
  case standing =>
    intro j phase hj
    rw [hhistory', ← hhistory]
    refine standing_put hstanding (fun j phase _ hold => ?_) hj
    rw [hhistory]
    exact h.standing j phase hold
  case paced =>
    rw [hhistory']
    exact h.paced
  case past =>
    rw [hhistory']
    exact h.past
  case malformed =>
    intro hmalformed
    obtain ⟨hcalls, hretries, hold⟩ := h.malformed hmalformed
    rw [hhistory']
    refine ⟨hcalls, hretries, fun j phase hj => ?_⟩
    rcases put_handlers hj with ⟨-, -, rfl⟩ | ⟨-, hj'⟩
    · exact hearly hmalformed
    · exact hold j phase hj'

/-- A step of the only call that is active. -/
theorem Counted.act (h : Counted d q id)
    (halone : ∀ j phase, j ≠ i → q.1.handlers j = some ⟨id, phase⟩ → phase.active = false)
    (hwell : ¬ d.malformed id)
    (hstanding : Standing d id q.1.clock s.history s.outcome s.phase)
    (hunconsumed : s.phase.active = true → s.consumed = false)
    (hidle : s.phase.active = false → s.consumed = false → Idle d q.1.clock s.entry s.history)
    (hpaced : Paced d s.history) (hpast : ∀ t ∈ s.history.retries, t ≤ q.1.clock) :
    Counted d (put q i id s) id := by
  obtain ⟨hretrying', hconsumed', -, hhistory'⟩ := put_self q i id s
  have hactive : ∀ j phase, (put q i id s).1.handlers j = some ⟨id, phase⟩ →
      phase.active = true → j = i ∧ phase = s.phase := by
    intro j phase hj hactive
    rcases put_handlers hj with ⟨hji, -, hphase⟩ | ⟨hji, hold⟩
    · exact ⟨hji, hphase⟩
    · rw [halone j phase hji hold] at hactive
      cases hactive
  constructor
  case sole =>
    intro j k phase phase' hj hk hactive' hactive''
    rw [(hactive j phase hj hactive').1, (hactive k phase' hk hactive'').1]
  case unconsumed =>
    intro j phase hj hactive'
    obtain ⟨-, rfl⟩ := hactive j phase hj hactive'
    rw [hconsumed']
    exact hunconsumed hactive'
  case idle =>
    intro hfree hinactive
    rw [hretrying', hhistory']
    refine hidle (hinactive i s.phase ?_) (hconsumed' ▸ hfree)
    exact Function.update_self _ _ _
  case standing =>
    intro j phase hj
    rw [hhistory']
    exact standing_put hstanding
      (fun j phase hji hold => (h.standing j phase hold).of_inactive (halone j phase hji hold)) hj
  case paced =>
    rw [hhistory']
    exact hpaced
  case past =>
    rw [hhistory']
    exact hpast
  case malformed =>
    intro hmalformed
    exact absurd hmalformed hwell

/-! ## The steps -/

section

variable (h : Counted d q id) (reason : String)
include h

/-- Nobody else is active. -/
theorem Counted.alone (hi : q.1.handlers i = some ⟨id, phase⟩)
    (hactive : phase.active = true) (j : ℕ) (phase' : Phase) (hji : j ≠ i)
    (hj : q.1.handlers j = some ⟨id, phase'⟩) : phase'.active = false := by
  by_contra hother
  exact hji (h.sole j i phase' phase hj hi (Bool.eq_true_of_not_eq_false hother) hactive)

theorem Counted.well (hi : q.1.handlers i = some ⟨id, phase⟩)
    (hlate : phase.early = false) : ¬ d.malformed id := by
  intro hmalformed
  have hearly := (h.malformed hmalformed).2.2 i phase hi
  rw [hlate] at hearly
  cases hearly

/-- Whoever is given the claim has the count of the attempts that were made, and their waits are
over. -/
theorem Counted.claim (hclaimed : Claimed d q id)
    (hi : q.1.handlers i = some ⟨id, .claiming n⟩) (hnone : q.1.claimed id = none)
    (hunconsumed : q.1.consumed id = false) (hserial : Serial d q (.claim i none)) :
    Counted d (put q i id
      { slotOf q i id (.claiming n) with phase := .calling n, claimed := some i }) id := by
  obtain ⟨hmade, hpending⟩ := hserial id n hi hnone hunconsumed
  have hinactive : ∀ j phase, q.1.handlers j = some ⟨id, phase⟩ → phase.active = false := by
    intro j phase hj
    have hholds : phase.holds = false := by
      by_contra hother
      rw [hclaimed.holding j phase hj (Bool.eq_true_of_not_eq_false hother)] at hnone
      cases hnone
    rw [Phase.active, hholds, hpending j phase hj]
    rfl
  have hidle := h.idle hunconsumed hinactive
  have hattempt : (q.2.histories id).calls.length + 1 = n.attempt ∧
      ∀ e, q.1.retrying id = some e → e.notBefore ≤ q.1.clock := by
    have hcount := hidle.made
    cases hentry : q.1.retrying id with
    | none =>
      rw [hentry] at hmade hcount
      simp only [madeAt, Option.map_some, Option.some.injEq, Option.map_none,
        Option.getD_none] at hmade hcount
      exact ⟨by omega, fun e he => by cases he⟩
    | some e =>
      rw [hentry] at hmade hcount
      simp only [madeAt, Option.map_some, Option.getD_some] at hmade hcount
      split at hmade
      · cases hmade
      · next hover =>
        simp only [Option.map_some, Option.some.injEq] at hmade
        refine ⟨by omega, fun e' he' => ?_⟩
        cases he'
        omega
  obtain ⟨hcalls, hover⟩ := hattempt
  have hretries := hidle.retries
  have hleft := hidle.left
  refine h.act (fun j phase _ hj => hinactive j phase hj) (h.well hi rfl) ?_
    (fun _ => hunconsumed) (fun hfalse => by cases hfalse) h.paced h.past
  have hcount : (q.2.histories id).retries.length + 1 = n.attempt := by omega
  refine ⟨hcalls, hcount, by omega, fun k t _ ht => ?_⟩
  rcases hidle.waits k t ht with hpast | ⟨e, he, hwait⟩
  · exact hpast
  · exact hwait.trans (hover e he)

theorem Counted.call (hi : q.1.handlers i = some ⟨id, .calling n⟩) :
    Counted d (put q i id
      { slotOf q i id (.calling n) with
        phase := .delivering n
        history := (q.2.histories id).called n.attempt q.1.clock }) id := by
  obtain ⟨hcalls, hretries, hmax, hwaited⟩ := h.standing i _ hi
  have hunconsumed := h.unconsumed i _ hi rfl
  refine h.act (h.alone hi rfl) (h.well hi rfl) ⟨?_, hretries, hmax, hwaited⟩
    (fun _ => hunconsumed) (fun hfalse => by cases hfalse) ?_ h.past
  · simp only [History.called, List.length_append, List.length_singleton]
    exact hcalls
  · intro k call hk
    rcases lt_or_ge k (q.2.histories id).calls.length with hlt | hge
    · refine h.paced k call ?_
      rwa [History.called, List.getElem?_append_left hlt] at hk
    · rw [History.called, List.getElem?_append_right hge] at hk
      obtain ⟨hzero, hcall⟩ := List.getElem?_eq_some_iff.mp hk
      simp only [List.length_singleton] at hzero
      simp only [List.getElem_singleton] at hcall
      subst hcall
      refine ⟨⟨by dsimp only; omega, by omega⟩, fun j t hj => ?_⟩
      exact hwaited j t (List.getElem?_eq_some_iff.mp hj).1 hj

theorem Counted.retry (hi : q.1.handlers i = some ⟨id, .delivering n⟩) :
    Counted d (put q i id
      { slotOf q i id (.delivering n) with
        phase := .rollingBackRetry n reason
        history := (q.2.histories id).retriedAt q.1.clock
        outcome := some (.retry reason, (q.2.histories id).retries.length + 1) }) id := by
  obtain ⟨hcalls, hretries, hmax, hwaited⟩ := h.standing i _ hi
  have hunconsumed := h.unconsumed i _ hi rfl
  have hlength : ((q.2.histories id).retriedAt q.1.clock).retries.length = n.attempt := by
    rw [History.retriedAt, List.length_append, List.length_singleton]
    exact hretries
  refine h.act (h.alone hi rfl) (h.well hi rfl)
    ⟨hcalls, hlength, hmax, fun k t hk ht => ?_, by simp only [hretries]⟩
    (fun _ => hunconsumed) (fun hfalse => by cases hfalse) h.paced fun t ht => ?_
  · -- The wait after this `Retry` is the last, and is not over yet.
    have hlt : k < (q.2.histories id).retries.length := by omega
    rw [History.retriedAt, List.getElem?_append_left hlt] at ht
    exact hwaited k t hlt ht
  · rcases List.mem_append.mp ht with hold | hnew
    · exact h.past t hold
    · exact (List.mem_singleton.mp hnew).le

/-- The record is dead-lettered, and its attempts are counted from the beginning. -/
theorem Counted.deadLetter (hi : q.1.handlers i = some ⟨id, phase⟩)
    (hactive : phase.active = true) (hlate : phase.early = false) (reason : String)
    (hjustified : Justified d id (q.2.outcomes i)) :
    Counted d (put q i id
      { slotOf q i id phase with
        phase := .answered (.exhausted reason)
        entry := none
        history := (q.2.histories id).deadLettered }) id := by
  refine h.act (h.alone hi hactive) (h.well hi hlate) hjustified (fun hfalse => by cases hfalse)
    (fun _ _ => ⟨rfl, rfl, d.maxAttempts_pos, fun k t hk => ?_⟩) (fun k call hk => ?_) fun t ht => ?_
  · simp [History.deadLettered] at hk
  · simp [History.deadLettered] at hk
  · cases ht

theorem Counted.wait
    (hi : q.1.handlers i = some ⟨id, .retried n reason⟩) (hleft : n.attempt < d.policy.maxAttempts) :
    Counted d (put q i id
      { slotOf q i id (.retried n reason) with
        phase := .answered (.publish reason)
        entry := some ⟨n.attempt, q.1.clock + d.policy.backoff n.attempt⟩ }) id := by
  obtain ⟨hcalls, hretries, -, hwaited, -⟩ := h.standing i _ hi
  have hidle : Idle d q.1.clock (some ⟨n.attempt, q.1.clock + d.policy.backoff n.attempt⟩)
      (q.2.histories id) := by
    refine ⟨hcalls.symm, hretries.trans hcalls.symm, by omega, fun k t ht => ?_⟩
    have hk := (List.getElem?_eq_some_iff.mp ht).1
    rcases lt_or_ge k (n.attempt - 1) with hlt | hge
    · exact .inl (hwaited k t hlt ht)
    · -- The last `Retry` was answered before the map is written.
      have hlast : k + 1 = n.attempt := by omega
      have hpast := h.past t (List.mem_of_getElem? ht)
      refine .inr ⟨_, rfl, ?_⟩
      rw [hlast]
      exact Nat.add_le_add_right hpast _
  exact h.act (h.alone hi rfl) (h.well hi rfl) trivial (fun hfalse => by cases hfalse)
    (fun _ _ => hidle) h.paced h.past

/-- A call that goes on with the attempt it is at. -/
theorem Counted.goOn (hi : q.1.handlers i = some ⟨id, phase⟩)
    (hactive : phase.active = true) (hlate : phase.early = false) (hactive' : s.phase.active = true)
    (hconsumed : s.consumed = q.1.consumed id) (hhistory : s.history = q.2.histories id)
    (hstanding : Standing d id q.1.clock s.history s.outcome s.phase) :
    Counted d (put q i id s) id := by
  refine h.act (h.alone hi hactive) (h.well hi hlate) hstanding (fun _ => ?_) (fun hfalse => ?_) ?_ ?_
  · rw [hconsumed]
    exact h.unconsumed i _ hi hactive
  · rw [hactive'] at hfalse
    cases hfalse
  · rw [hhistory]
    exact h.paced
  · rw [hhistory]
    exact h.past

theorem Counted.moves (hclaimed : Claimed d q id)
    (hi : q.1.handlers i = some ⟨id, phase⟩) (hserial : Serial d q a)
    (hm : Moves d q.1.clock i id (slotOf q i id phase) a s) : Counted d (put q i id s) id := by
  have hstanding := h.standing i phase hi
  -- The call is at no other phase.
  have hquiet (hphase : phase.active = false) :
      ∀ phase', q.1.handlers i = some ⟨id, phase'⟩ → phase'.active = false := by
    intro phase' hi'
    rw [hi] at hi'
    cases hi'
    exact hphase
  cases hm with
  | publishes a reason hphase =>
    refine h.quiet (hquiet ?_) rfl rfl (fun _ => rfl) rfl trivial fun _ => rfl
    rcases hphase with hphase | ⟨n, hphase⟩ | ⟨n, hphase⟩ <;>
      rw [show phase = _ from hphase] <;> rfl
  | malformed reason hphase hmalformed =>
    obtain rfl : phase = .reading := hphase
    obtain ⟨hcalls, hretries, -⟩ := h.malformed hmalformed
    refine h.quiet (hquiet rfl) rfl rfl (fun _ => rfl) ?_ (.inl hmalformed) fun _ => rfl
    -- There is nothing to forget of a record that was never delivered.
    show History.mk [] [] _ _ = _
    rw [← hcalls, ← hretries]
    rfl
  | reads n hphase hwell =>
    obtain rfl : phase = .reading := hphase
    exact h.quiet (hquiet rfl) rfl rfl (fun _ => rfl) rfl trivial
      fun hmalformed => absurd hmalformed hwell
  | begins n hphase =>
    obtain rfl : phase = .beginning n := hphase
    exact h.quiet (hquiet rfl) rfl rfl (fun _ => rfl) rfl trivial
      fun hmalformed => absurd hmalformed (h.well hi rfl)
  | finds n hphase hnone hconsumed =>
    obtain rfl : phase = .claiming n := hphase
    exact h.quiet (hquiet rfl) rfl rfl (fun _ => rfl) rfl trivial
      fun hmalformed => absurd hmalformed (h.well hi rfl)
  | claims n hphase hnone hunconsumed =>
    obtain rfl : phase = .claiming n := hphase
    exact h.claim hclaimed hi hnone hunconsumed hserial
  | calls n hphase =>
    obtain rfl : phase = .calling n := hphase
    exact h.call hi
  | delivers n hphase =>
    obtain rfl : phase = .delivering n := hphase
    exact h.goOn hi rfl rfl rfl rfl rfl hstanding
  | retries n reason hphase =>
    obtain rfl : phase = .delivering n := hphase
    exact h.retry reason hi
  | rejects n reason hphase =>
    obtain rfl : phase = .delivering n := hphase
    exact h.goOn hi rfl rfl rfl rfl rfl ⟨_, rfl⟩
  | commits n result phase' hphase hphase' =>
    obtain rfl : phase = .committing n := hphase
    refine h.act (h.alone hi rfl) (h.well hi rfl) ?_ ?_ (fun _ hfalse => by cases hfalse) h.paced
      h.past
    · rcases hphase' with rfl | ⟨e, rfl⟩ <;> trivial
    · rcases hphase' with rfl | ⟨e, rfl⟩ <;> intro hfalse <;> cases hfalse
  | fails n e reason hphase =>
    obtain rfl : phase = .committing n := hphase
    exact absurd hi (hserial id n)
  | skips hphase =>
    obtain rfl : phase = .unclaimed := hphase
    exact h.quiet (hquiet rfl) rfl rfl (fun _ => rfl) rfl trivial
      fun hmalformed => absurd hmalformed (h.well hi rfl)
  | rollsBackRetry n reason hphase =>
    obtain rfl : phase = .rollingBackRetry n reason := hphase
    exact h.goOn hi rfl rfl rfl rfl rfl hstanding
  | rollsBackReject reason hphase =>
    obtain rfl : phase = .rollingBackReject reason := hphase
    exact h.goOn hi rfl rfl rfl rfl rfl hstanding
  | settles hphase =>
    obtain rfl : phase = .settled := hphase
    have hconsumed := hclaimed.knows i _ hi rfl
    refine h.quiet (hquiet rfl) rfl rfl (fun hfree => ?_) rfl trivial fun _ => rfl
    rw [show q.1.consumed id = false from hfree] at hconsumed
    cases hconsumed
  | givesUp n why reason hphase hmax =>
    obtain rfl : phase = .retried n why := hphase
    obtain ⟨-, -, hle, -, houtcome⟩ := hstanding
    have hattempt : n.attempt = d.policy.maxAttempts := by omega
    exact h.deadLetter hi rfl rfl reason (.inr (.inr ⟨why, hattempt ▸ houtcome⟩))
  | waits n reason hphase hleft =>
    obtain rfl : phase = .retried n reason := hphase
    exact h.wait reason hi hleft
  | panics n reason hphase hleft hover =>
    obtain rfl : phase = .retried n reason := hphase
    have hadd := hserial id n reason hi hleft
    omega
  | gives reason hphase =>
    obtain rfl : phase = .rejected reason := hphase
    obtain ⟨k, houtcome⟩ := hstanding
    exact h.deadLetter hi rfl rfl reason (.inr (.inl ⟨reason, k, houtcome⟩))

end

/-- The invariant is kept by every step that meets the condition. -/
theorem Counted.step (h : ∀ id, Claimed d q id ∧ Counted d q id) (hserial : Serial d q a)
    (id : Uuid) : Counted d (stepLogged d q a) id := by
  generalize hq : stepLogged d q a = q'
  have hhappens := happens_step (d := d) (q := q) a
  rw [hq] at hhappens
  obtain ⟨hclaimed, hcounted⟩ := h id
  cases hhappens with
  | nothing heq =>
    rw [heq]
    exact hcounted
  | elapses nanos heq =>
    rw [heq]
    have hclock : q.1.clock ≤ q.1.clock + nanos := Nat.le_add_right _ _
    exact ⟨hcounted.sole, hcounted.unconsumed, fun hfree hinactive =>
      (hcounted.idle hfree hinactive).mono hclock, fun i phase hi =>
      (hcounted.standing i phase hi).mono hclock, hcounted.paced, fun t ht =>
      (hcounted.past t ht).trans hclock, hcounted.malformed⟩
  | hands i id' phase hnone hphase heq =>
    rw [heq]
    by_cases hid : id = id'
    · subst hid
      refine hcounted.quiet (fun phase' hi' => ?_) ?_ rfl (fun _ => rfl) rfl ?_ ?_
      · rw [hnone] at hi'
        cases hi'
      · rcases hphase with rfl | ⟨rfl, -⟩ <;> rfl
      · rcases hphase with rfl | ⟨rfl, -⟩ <;> trivial
      · rcases hphase with rfl | ⟨rfl, -⟩ <;> exact fun _ => rfl
    · refine hcounted.frame hid fun phase' hi' => ?_
      rw [hnone] at hi'
      cases hi'
  | moves i id' phase s hi hm heq =>
    rw [heq]
    by_cases hid : id = id'
    · subst hid
      exact hcounted.moves hclaimed hi hserial hm
    · refine hcounted.frame hid fun phase' hi' => ?_
      rw [hi] at hi'
      cases hi'
      exact hid rfl

theorem Counted.counts (h : ∀ id, Claimed d q id ∧ Counted d q id) : Counts d q where
  once id := (h id).1.once
  numbered id k call hk := ((h id).2.paced k call hk).1
  spaced id call hcall k t hk := by
    obtain ⟨j, hj⟩ := List.mem_iff_getElem?.mp hcall
    exact ((h id).2.paced j call hj).2 k t hk
  ok i id hi hrequest := by
    rw [(h id).1.delivered]
    exact (h id).1.ok hrequest i hi
  exhausted i id reason hi := (h id).2.standing i _ hi

/-- As long as whoever is given a claim acts on the count that the map holds still, the attempts of
every record are counted. -/
theorem counts_of_serial (d : NotificationDispatcher) (now : ℕ) (as : List Act)
    (hserial : Along (stepLogged d) (Serial d) (Deliveries.init now, Log.empty) as) :
    Counts d (run (stepLogged d) (Deliveries.init now, Log.empty) as) :=
  Counted.counts (invariant_along (stepLogged d) (I := fun q => ∀ id, Claimed d q id ∧ Counted d q id)
    (fun _ a h ha id => ⟨Claimed.step (fun id => (h id).1) a id, Counted.step h ha id⟩)
    (fun _ => ⟨Claimed.init now, Counted.init now⟩) hserial)

/-- Two attempts, with no wait between them; every payload is a request. -/
def twoAttempts : NotificationDispatcher where
  policy := .immediate 2
  maxAttempts_pos := Nat.zero_lt_two
  rows id := ⟨id, NotificationRequested.name, "Incident", "i-1", 1, .null, 0, none, none, 1, none⟩
  rows_id _ := rfl
  fromValue _ := .ok ⟨"email", none, none, .null, .null, "Incident.after_create"⟩

/-- One call of `deliver` up to the answer of the delivery. -/
def offer (i : ℕ) (outcome : DeliveryOutcome) : List Act :=
  [.hand i 7, .read i, .begin i none, .claim i none, .call i, .answer i outcome]

/-- A request that is delivered at the second attempt. -/
theorem counts_of_serial_retried :
    let q := run (stepLogged twoAttempts) (Deliveries.init 0, Log.empty)
      (offer 0 (.retry "busy") ++ [.rollback 0, .write 0] ++ offer 1 .delivered ++
        [.commit 1 .committed, .write 1])
    (q.2.histories 7).calls = [⟨1, 0, []⟩, ⟨2, 0, [0]⟩] ∧
      (q.2.histories 7).delivered = true ∧ Counts twoAttempts q := by
  refine ⟨rfl, rfl, counts_of_serial twoAttempts 0 _ ?_⟩
  refine ⟨trivial, trivial, trivial, ?_, trivial, trivial, trivial, ?_, trivial, trivial, trivial, ?_,
    trivial, trivial, trivial, ?_, trivial⟩
  · rintro id n hi - -
    cases hi
    refine ⟨rfl, fun j phase hj => ?_⟩
    rcases j with _ | j
    · cases hj
      rfl
    · cases hj
  · rintro id n reason hi -
    cases hi
    decide
  · rintro id n hi - -
    cases hi
    refine ⟨rfl, fun j phase hj => ?_⟩
    rcases j with _ | _ | j
    · cases hj
      rfl
    · cases hj
      rfl
    · cases hj
  · rintro id n reason hi -
    cases hi

/-- A call that read the map before another one claimed the record repeats its attempt. -/
theorem not_counted : ¬ ∀ d now as,
    Counts d (run (stepLogged d) (Deliveries.init now, Log.empty) as) := by
  intro h
  have hcall := (h twoAttempts 0 ([.hand 1 7, .read 1, .begin 1 none] ++ offer 0 (.retry "busy") ++
    [.rollback 0, .claim 1 none, .call 1])).numbered 7 1 ⟨1, 0, [0]⟩ rfl
  exact absurd hcall.1 (by decide)

end Backbone.Notification
