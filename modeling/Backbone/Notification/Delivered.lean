import Backbone.Notification.Dispatcher

/-!
# What the claim ensures

The runs of the dispatcher with a log of what happened to each record. Claiming a record makes its
deliveries follow one another: in every run a delivered record is never delivered again, and `Ok` is
answered for a delivered record only (`delivered_once`).

Reference: `backbone-core/src/notification.rs`.
-/

namespace Backbone.Notification

open Machine
open Workflow (Uuid)

/-- A call of the delivery. -/
structure Call where
  attempt : ℕ
  time : ℕ
  /-- When each `Retry` was answered that came before, since the record was last dead-lettered. -/
  retries : List ℕ
deriving DecidableEq

/-- What happened to a record. -/
structure History where
  /-- The calls of the delivery since the record was last dead-lettered. -/
  calls : List Call
  /-- When each `Retry` was answered since then. -/
  retries : List ℕ
  /-- A call answered `Delivered` and was committed. -/
  delivered : Bool
  /-- The delivery was called after that. -/
  again : Bool

namespace History

def empty : History := ⟨[], [], false, false⟩

def called (h : History) (attempt now : ℕ) : History :=
  { h with calls := h.calls ++ [⟨attempt, now, h.retries⟩], again := h.again || h.delivered }

def retriedAt (h : History) (now : ℕ) : History := { h with retries := h.retries ++ [now] }

def deadLettered (h : History) : History := { h with calls := [], retries := [] }

end History

/-- The histories of the records, and what the delivery answered each call of `deliver` with how many
`Retry` there had been by then. -/
structure Log where
  histories : Uuid → History
  outcomes : ℕ → Option (DeliveryOutcome × ℕ)

namespace Log

def empty : Log := ⟨fun _ => .empty, fun _ => none⟩

def update (h : Log) (id : Uuid) (f : History → History) : Log :=
  { h with histories := Function.update h.histories id (f (h.histories id)) }

def answeredWith (h : Log) (i : ℕ) (id : Uuid) (outcome : DeliveryOutcome) : Log :=
  { h with outcomes :=
      Function.update h.outcomes i (some (outcome, (h.histories id).retries.length)) }

end Log

/-- The record that a call has answered `Exhausted` for. -/
def Deliveries.exhausted (w : Deliveries) (i : ℕ) : Option Uuid :=
  match w.handlers i with
  | some ⟨id, .answered (.exhausted _)⟩ => some id
  | _ => none

/-- What a step adds to the log. -/
def note (h : Log) (w : Deliveries) (a : Act) (w' : Deliveries) : Log :=
  match a with
  | .call i =>
    match w.handlers i with
    | some ⟨id, .calling n⟩ => h.update id (·.called n.attempt w.clock)
    | _ => h
  | .answer i outcome =>
    match w.handlers i with
    | some ⟨id, .delivering _⟩ =>
      match outcome with
      | .retry _ => (h.update id (·.retriedAt w.clock)).answeredWith i id outcome
      | _ => h.answeredWith i id outcome
    | _ => h
  | .commit i result =>
    match w.handlers i with
    | some ⟨id, .committing _⟩ =>
      match result with
      | .failed _ => h
      | _ => h.update id fun history => { history with delivered := true }
    | _ => h
  | .read i | .write i =>
    match w.exhausted i, w'.exhausted i with
    | none, some id => h.update id (·.deadLettered)
    | _, _ => h
  | _ => h

/-! ## What a step can do -/

variable {d : NotificationDispatcher} {q : Deliveries × Log} {a : Act} {i : ℕ} {id : Uuid}
  {fromValue : Workflow.Value → Except String NotificationRequested} {record : Outbox.OutboxRecord}
  {attempt : ℕ}

/-- What a step of one call can change. -/
structure Slot where
  phase : Phase
  entry : Option Attempts
  consumed : Bool
  claimed : Option ℕ
  history : History
  outcome : Option (DeliveryOutcome × ℕ)

def slotOf (q : Deliveries × Log) (i : ℕ) (id : Uuid) (phase : Phase) : Slot where
  phase := phase
  entry := q.1.retrying id
  consumed := q.1.consumed id
  claimed := q.1.claimed id
  history := q.2.histories id
  outcome := q.2.outcomes i

def put (q : Deliveries × Log) (i : ℕ) (id : Uuid) (s : Slot) : Deliveries × Log :=
  ({ retrying := Function.update q.1.retrying id s.entry
     consumed := Function.update q.1.consumed id s.consumed
     claimed := Function.update q.1.claimed id s.claimed
     handlers := Function.update q.1.handlers i (some ⟨id, s.phase⟩)
     clock := q.1.clock },
    { histories := Function.update q.2.histories id s.history
      outcomes := Function.update q.2.outcomes i s.outcome })

/-- How a call goes on. -/
inductive Moves (d : NotificationDispatcher) (clock i : ℕ) (id : Uuid) (s : Slot) : Act → Slot → Prop
  | publishes (a : Act) (reason : String) :
      s.phase = .reading ∨ (∃ n, s.phase = .beginning n) ∨ (∃ n, s.phase = .claiming n) →
        Moves d clock i id s a { s with phase := .answered (.publish reason) }
  | malformed (reason : String) : s.phase = .reading → d.malformed id →
      Moves d clock i id s (.read i)
        { s with phase := .answered (.exhausted reason), history := s.history.deadLettered }
  | reads (n : PendingNotification) : s.phase = .reading → ¬ d.malformed id →
      Moves d clock i id s (.read i) { s with phase := .beginning n }
  | begins (n : PendingNotification) : s.phase = .beginning n →
      Moves d clock i id s (.begin i none) { s with phase := .claiming n }
  | finds (n : PendingNotification) : s.phase = .claiming n → s.claimed = none →
      s.consumed = true → Moves d clock i id s (.claim i none) { s with phase := .unclaimed }
  | claims (n : PendingNotification) : s.phase = .claiming n → s.claimed = none →
      s.consumed = false →
        Moves d clock i id s (.claim i none) { s with phase := .calling n, claimed := some i }
  | calls (n : PendingNotification) : s.phase = .calling n →
      Moves d clock i id s (.call i)
        { s with phase := .delivering n, history := s.history.called n.attempt clock }
  | delivers (n : PendingNotification) : s.phase = .delivering n →
      Moves d clock i id s (.answer i .delivered)
        { s with phase := .committing n, outcome := some (.delivered, s.history.retries.length) }
  | retries (n : PendingNotification) (reason : String) : s.phase = .delivering n →
      Moves d clock i id s (.answer i (.retry reason))
        { s with
          phase := .rollingBackRetry n reason
          history := s.history.retriedAt clock
          outcome := some (.retry reason, s.history.retries.length + 1) }
  | rejects (n : PendingNotification) (reason : String) : s.phase = .delivering n →
      Moves d clock i id s (.answer i (.reject reason))
        { s with
          phase := .rollingBackReject reason
          outcome := some (.reject reason, s.history.retries.length) }
  | commits (n : PendingNotification) (result : CommitResult) (phase : Phase) :
      s.phase = .committing n → phase = .settled ∨ (∃ e, phase = .answered (.publish e)) →
        Moves d clock i id s (.commit i result)
          { s with
            phase := phase
            consumed := true
            claimed := none
            history := { s.history with delivered := true } }
  | fails (n : PendingNotification) (e reason : String) : s.phase = .committing n →
      Moves d clock i id s (.commit i (.failed e))
        { s with phase := .answered (.publish reason), claimed := none }
  | skips : s.phase = .unclaimed → Moves d clock i id s (.rollback i) { s with phase := .settled }
  | rollsBackRetry (n : PendingNotification) (reason : String) :
      s.phase = .rollingBackRetry n reason →
        Moves d clock i id s (.rollback i) { s with phase := .retried n reason, claimed := none }
  | rollsBackReject (reason : String) : s.phase = .rollingBackReject reason →
      Moves d clock i id s (.rollback i) { s with phase := .rejected reason, claimed := none }
  | settles : s.phase = .settled →
      Moves d clock i id s (.write i) { s with phase := .answered .ok, entry := none }
  | givesUp (n : PendingNotification) (why reason : String) : s.phase = .retried n why →
      d.policy.maxAttempts ≤ n.attempt →
        Moves d clock i id s (.write i)
          { s with
            phase := .answered (.exhausted reason)
            entry := none
            history := s.history.deadLettered }
  | waits (n : PendingNotification) (reason : String) : s.phase = .retried n reason →
      n.attempt < d.policy.maxAttempts →
        Moves d clock i id s (.write i)
          { s with
            phase := .answered (.publish reason)
            entry := some ⟨n.attempt, clock + d.policy.backoff n.attempt⟩ }
  | panics (n : PendingNotification) (reason : String) : s.phase = .retried n reason →
      n.attempt < d.policy.maxAttempts → maxInstant < clock + d.policy.backoff n.attempt →
        Moves d clock i id s (.write i) { s with phase := .panicked }
  | gives (reason : String) : s.phase = .rejected reason →
      Moves d clock i id s (.write i)
        { s with
          phase := .answered (.exhausted reason)
          entry := none
          history := s.history.deadLettered }

/-- The step of the dispatcher and its log. -/
abbrev stepLogged (d : NotificationDispatcher) (q : Deliveries × Log) (a : Act) : Deliveries × Log :=
  withHistory (Deliveries.step d) note q a

theorem put_slotOf (phase : Phase) :
    put q i id (slotOf q i id phase) = (q.1.setPhase i id phase, q.2) := by
  simp only [put, slotOf, Deliveries.setPhase, Function.update_eq_self]

theorem fromRecord_ok {n : PendingNotification}
    (h : PendingNotification.fromRecord fromValue record attempt = .ok n) :
    ¬ ∃ e, fromValue record.payload = .error e := by
  unfold PendingNotification.fromRecord at h
  rintro ⟨e, he⟩
  rw [he] at h
  cases h

theorem fromRecord_error {e : String}
    (h : PendingNotification.fromRecord fromValue record attempt = .error e) :
    ∃ e, fromValue record.payload = .error e := by
  unfold PendingNotification.fromRecord at h
  split at h
  · cases h
  · next e' he => exact ⟨e', he⟩

/-- Nothing happens, time passes, a call starts or a call goes on. -/
inductive Happens (d : NotificationDispatcher) (q : Deliveries × Log) (a : Act)
    (q' : Deliveries × Log) : Prop
  | nothing : q' = q → Happens d q a q'
  | elapses (nanos : ℕ) : q' = ({ q.1 with clock := q.1.clock + nanos }, q.2) → Happens d q a q'
  | hands (i : ℕ) (id : Uuid) (phase : Phase) : q.1.handlers i = none →
      phase = .reading ∨ phase = .answered .ok ∧ ¬ d.isRequest id →
        q' = put q i id (slotOf q i id phase) → Happens d q a q'
  | moves (i : ℕ) (id : Uuid) (phase : Phase) (s : Slot) : q.1.handlers i = some ⟨id, phase⟩ →
      Moves d q.1.clock i id (slotOf q i id phase) a s → q' = put q i id s → Happens d q a q'

attribute [local simp] withHistory Deliveries.step note put slotOf Deliveries.setPhase
  Deliveries.release Deliveries.forget Log.update Log.answeredWith

theorem happens_read (i : ℕ) : Happens d q (.read i) (stepLogged d q (.read i)) := by
  rcases hi : q.1.handlers i with _ | ⟨id, phase⟩
  case none =>
    apply Happens.nothing
    simp [Deliveries.exhausted, hi]
  cases phase
  case some.reading =>
    rcases hmade : madeAt q.1.clock (q.1.retrying id) with _ | made
    · refine .moves i id .reading _ hi (.publishes _
        ("notification " ++ toString id ++ " waits for its next attempt") (.inl rfl)) ?_
      simp [Deliveries.exhausted, hi, hmade]
    · rcases hn : PendingNotification.fromRecord d.fromValue (d.rows id) (made + 1) with e | n
      · refine .moves i id .reading _ hi (.malformed
          ("the payload is not a NotificationRequested: " ++ e) rfl (fromRecord_error hn)) ?_
        simp [Deliveries.exhausted, hi, hmade, hn]
      · refine .moves i id .reading _ hi (.reads n rfl (fromRecord_ok hn)) ?_
        simp [Deliveries.exhausted, hi, hmade, hn]
  all_goals
    apply Happens.nothing
    cases hanswered : q.1.exhausted i <;>
      simp [hi, hanswered]

theorem happens_claim (i : ℕ) (error : Option String) :
    Happens d q (.claim i error) (stepLogged d q (.claim i error)) := by
  rcases hi : q.1.handlers i with _ | ⟨id, phase⟩
  case none =>
    apply Happens.nothing
    simp [hi]
  cases phase
  case some.claiming n =>
    cases error with
    | some e =>
      refine .moves i id (.claiming n) _ hi
        (.publishes _ ("inbox: " ++ e) (.inr (.inr ⟨n, rfl⟩))) ?_
      simp [hi]
    | none =>
      cases hclaimed : q.1.claimed id with
      | some j =>
        apply Happens.nothing
        simp [hi, hclaimed]
      | none =>
        cases hconsumed : q.1.consumed id with
        | true =>
          refine .moves i id (.claiming n) _ hi (.finds n rfl hclaimed hconsumed) ?_
          simp [hi, hclaimed, hconsumed]
        | false =>
          refine .moves i id (.claiming n) _ hi (.claims n rfl hclaimed hconsumed) ?_
          simp [hi, hclaimed, hconsumed]
  all_goals
    apply Happens.nothing
    simp [hi]

theorem happens_answer (i : ℕ) (outcome : DeliveryOutcome) :
    Happens d q (.answer i outcome) (stepLogged d q (.answer i outcome)) := by
  rcases hi : q.1.handlers i with _ | ⟨id, phase⟩
  case none =>
    apply Happens.nothing
    simp [hi]
  cases phase
  case some.delivering n =>
    cases outcome with
    | delivered =>
      refine .moves i id (.delivering n) _ hi (.delivers n rfl) ?_
      simp [hi]
    | retry reason =>
      refine .moves i id (.delivering n) _ hi (.retries n reason rfl) ?_
      simp [hi, History.retriedAt]
    | reject reason =>
      refine .moves i id (.delivering n) _ hi (.rejects n reason rfl) ?_
      simp [hi]
  all_goals
    apply Happens.nothing
    simp [hi]

theorem happens_commit (i : ℕ) (result : CommitResult) :
    Happens d q (.commit i result) (stepLogged d q (.commit i result)) := by
  rcases hi : q.1.handlers i with _ | ⟨id, phase⟩
  case none =>
    apply Happens.nothing
    simp [hi]
  cases phase
  case some.committing n =>
    cases result with
    | committed =>
      refine .moves i id (.committing n) _ hi (.commits n _ .settled rfl (.inl rfl)) ?_
      simp [hi]
    | failed e =>
      refine .moves i id (.committing n) _ hi (.fails n e ("commit: " ++ e) rfl) ?_
      simp [hi]
    | lost e =>
      refine .moves i id (.committing n) _ hi
        (.commits n _ (.answered (.publish ("commit: " ++ e))) rfl (.inr ⟨_, rfl⟩)) ?_
      simp [hi]
  all_goals
    apply Happens.nothing
    simp [hi]

theorem happens_rollback (i : ℕ) : Happens d q (.rollback i) (stepLogged d q (.rollback i)) := by
  rcases hi : q.1.handlers i with _ | ⟨id, phase⟩
  case none =>
    apply Happens.nothing
    simp [hi]
  cases phase
  case some.unclaimed =>
    refine .moves i id .unclaimed _ hi (.skips rfl) ?_
    simp [hi]
  case some.rollingBackRetry n reason =>
    refine .moves i id (.rollingBackRetry n reason) _ hi (.rollsBackRetry n reason rfl) ?_
    simp [hi]
  case some.rollingBackReject reason =>
    refine .moves i id (.rollingBackReject reason) _ hi (.rollsBackReject reason rfl) ?_
    simp [hi]
  all_goals
    apply Happens.nothing
    simp [hi]

theorem happens_write (i : ℕ) : Happens d q (.write i) (stepLogged d q (.write i)) := by
  rcases hi : q.1.handlers i with _ | ⟨id, phase⟩
  case none =>
    apply Happens.nothing
    simp [Deliveries.exhausted, hi]
  cases phase
  case some.settled =>
    refine .moves i id .settled _ hi (.settles rfl) ?_
    simp [hi, Deliveries.exhausted]
  case some.retried n reason =>
    by_cases hmax : d.policy.maxAttempts ≤ n.attempt
    · refine .moves i id (.retried n reason) _ hi (.givesUp n reason
        ("gave up after " ++ toString n.attempt ++ " attempts: " ++ reason) rfl hmax) ?_
      simp [hi, hmax, Deliveries.exhausted]
    · by_cases hadd : q.1.clock + d.policy.backoff n.attempt ≤ maxInstant
      · refine .moves i id (.retried n reason) _ hi (.waits n reason rfl (by omega)) ?_
        simp [hi, hmax, hadd, Deliveries.exhausted]
      · refine .moves i id (.retried n reason) _ hi (.panics n reason rfl (by omega) (by omega)) ?_
        simp [hi, hmax, hadd, Deliveries.exhausted]
  case some.rejected reason =>
    refine .moves i id (.rejected reason) _ hi (.gives reason rfl) ?_
    simp [hi, Deliveries.exhausted]
  all_goals
    apply Happens.nothing
    cases hanswered : q.1.exhausted i <;>
      simp [hi, hanswered]

/-- What a step can do. -/
theorem happens_step (a : Act) : Happens d q a (stepLogged d q a) := by
  cases a with
  | hand i id =>
    rcases hi : q.1.handlers i with _ | handler
    · refine .hands i id (if d.isRequest id then .reading else .answered .ok) hi ?_ ?_
      · split
        · exact .inl rfl
        · next hother => exact .inr ⟨rfl, hother⟩
      · rw [put_slotOf]
        simp [hi]
    · apply Happens.nothing
      simp [hi]
  | read i => exact happens_read i
  | begin i error =>
    rcases hi : q.1.handlers i with _ | ⟨id, phase⟩
    case none =>
      apply Happens.nothing
      simp [hi]
    cases phase
    case some.beginning n =>
      cases error with
      | none =>
        refine .moves i id (.beginning n) _ hi (.begins n rfl) ?_
        simp [hi]
      | some e =>
        refine .moves i id (.beginning n) _ hi
          (.publishes _ ("begin: " ++ e) (.inr (.inl ⟨n, rfl⟩))) ?_
        simp [hi]
    all_goals
      apply Happens.nothing
      simp [hi]
  | claim i error => exact happens_claim i error
  | call i =>
    rcases hi : q.1.handlers i with _ | ⟨id, phase⟩
    case none =>
      apply Happens.nothing
      simp [hi]
    cases phase
    case some.calling n =>
      refine .moves i id (.calling n) _ hi (.calls n rfl) ?_
      simp [hi]
    all_goals
      apply Happens.nothing
      simp [hi]
  | answer i outcome => exact happens_answer i outcome
  | commit i result => exact happens_commit i result
  | rollback i => exact happens_rollback i
  | write i => exact happens_write i
  | elapse nanos => exact .elapses nanos rfl

/-! ## What a claim ensures -/

section

variable {s : Slot} {id' : Uuid} {phase : Phase}

/-- A handler after the step is the one that went on or was there before. -/
theorem put_handlers {j : ℕ} {phase : Phase}
    (hj : (put q i id s).1.handlers j = some ⟨id', phase⟩) :
    j = i ∧ id' = id ∧ phase = s.phase ∨ j ≠ i ∧ q.1.handlers j = some ⟨id', phase⟩ := by
  by_cases hji : j = i
  · subst hji
    simp only [put, Function.update_self, Option.some.injEq, Handler.mk.injEq] at hj
    exact .inl ⟨rfl, hj.1.symm, hj.2.symm⟩
  · simp only [put, Function.update_of_ne hji] at hj
    exact .inr ⟨hji, hj⟩

theorem put_self (q : Deliveries × Log) (i : ℕ) (id : Uuid) (s : Slot) :
    (put q i id s).1.retrying id = s.entry ∧ (put q i id s).1.consumed id = s.consumed ∧
      (put q i id s).1.claimed id = s.claimed ∧ (put q i id s).2.histories id = s.history := by
  simp [put]

theorem put_of_ne (q : Deliveries × Log) (i : ℕ) (s : Slot) (hne : id' ≠ id) :
    (put q i id s).1.retrying id' = q.1.retrying id' ∧
      (put q i id s).1.consumed id' = q.1.consumed id' ∧
      (put q i id s).1.claimed id' = q.1.claimed id' ∧
      (put q i id s).2.histories id' = q.2.histories id' := by
  simp [put, hne]

/-- The call's open transaction claims the record. -/
def Phase.holds : Phase → Bool
  | .calling _ | .delivering _ | .committing _ | .rollingBackRetry _ _ | .rollingBackReject _ => true
  | _ => false

/-- The call knows that the record is delivered. -/
def Phase.knows : Phase → Bool
  | .unclaimed | .settled => true
  | _ => false

/-- Who claims a record holds the claim alone, and whoever is told of a delivery is told the truth. -/
structure Claimed (d : NotificationDispatcher) (q : Deliveries × Log) (id : Uuid) : Prop where
  holding : ∀ i phase, q.1.handlers i = some ⟨id, phase⟩ → phase.holds = true →
    q.1.claimed id = some i
  held : q.1.claimed id ≠ none → q.1.consumed id = false
  delivered : (q.2.histories id).delivered = q.1.consumed id
  once : (q.2.histories id).again = false
  knows : ∀ i phase, q.1.handlers i = some ⟨id, phase⟩ → phase.knows = true →
    q.1.consumed id = true
  ok : d.isRequest id → ∀ i, q.1.handlers i = some ⟨id, .answered .ok⟩ → q.1.consumed id = true

theorem Claimed.init (now : ℕ) : Claimed d (Deliveries.init now, Log.empty) id where
  holding i phase hi := by cases hi
  held h := by cases h rfl
  delivered := rfl
  once := rfl
  knows i phase hi := by cases hi
  ok _ i hi := by cases hi

/-- A step on another record. -/
theorem Claimed.frame (h : Claimed d q id') (hne : id' ≠ id) : Claimed d (put q i id s) id' := by
  have hother : ∀ j phase, (put q i id s).1.handlers j = some ⟨id', phase⟩ →
      q.1.handlers j = some ⟨id', phase⟩ := by
    intro j phase hj
    rcases put_handlers hj with ⟨-, hid, -⟩ | ⟨-, hold⟩
    · exact absurd hid hne
    · exact hold
  obtain ⟨-, hconsumed, hclaimed, hhistory⟩ := put_of_ne q i s hne
  constructor
  case holding =>
    intro j phase hj hholds
    rw [hclaimed]
    exact h.holding j phase (hother j phase hj) hholds
  case held =>
    rw [hclaimed, hconsumed]
    exact h.held
  case delivered =>
    rw [hhistory, hconsumed]
    exact h.delivered
  case once =>
    rw [hhistory]
    exact h.once
  case knows =>
    intro j phase hj hknows
    rw [hconsumed]
    exact h.knows j phase (hother j phase hj) hknows
  case ok =>
    intro hrequest j hj
    rw [hconsumed]
    exact h.ok hrequest j (hother j _ hj)

section

variable (h : Claimed d q id)
include h

/-- A step on the record itself. -/
theorem Claimed.put (hkept : s.claimed = q.1.claimed id ∨
      ∀ j phase, j ≠ i → q.1.handlers j = some ⟨id, phase⟩ → phase.holds = false)
    (hconsumed : q.1.consumed id = true → s.consumed = true)
    (hholding : s.phase.holds = true → s.claimed = some i)
    (hheld : s.claimed ≠ none → s.consumed = false)
    (hdelivered : s.history.delivered = s.consumed) (honce : s.history.again = false)
    (hknows : s.phase.knows = true → s.consumed = true)
    (hok : d.isRequest id → s.phase = .answered .ok → s.consumed = true) :
    Claimed d (put q i id s) id := by
  obtain ⟨-, hconsumed', hclaimed', hhistory'⟩ := put_self q i id s
  constructor
  case holding =>
    intro j phase hj hholds
    rw [hclaimed']
    rcases put_handlers hj with ⟨rfl, -, rfl⟩ | ⟨hji, hold⟩
    · exact hholding hholds
    · rcases hkept with hsame | hothers
      · rw [hsame]
        exact h.holding j phase hold hholds
      · rw [hothers j phase hji hold] at hholds
        cases hholds
  case held =>
    rw [hclaimed', hconsumed']
    exact hheld
  case delivered =>
    rw [hhistory', hconsumed']
    exact hdelivered
  case once =>
    rw [hhistory']
    exact honce
  case knows =>
    intro j phase hj hknows'
    rw [hconsumed']
    rcases put_handlers hj with ⟨-, -, rfl⟩ | ⟨-, hold⟩
    · exact hknows hknows'
    · exact hconsumed (h.knows j phase hold hknows')
  case ok =>
    intro hrequest j hj
    rw [hconsumed']
    rcases put_handlers hj with ⟨-, -, hphase⟩ | ⟨-, hold⟩
    · exact hok hrequest hphase.symm
    · exact hconsumed (h.ok hrequest j hold)

section

variable (hi : q.1.handlers i = some ⟨id, phase⟩)
include hi

/-- A step that neither claims, releases nor delivers. -/
theorem Claimed.quiet
    (hclaimed : s.claimed = q.1.claimed id) (hconsumed : s.consumed = q.1.consumed id)
    (hdelivered : s.history.delivered = (q.2.histories id).delivered)
    (honce : s.history.again = (q.2.histories id).again)
    (hholds : s.phase.holds = true → phase.holds = true)
    (hknows : s.phase.knows = true ∨ s.phase = .answered .ok → q.1.consumed id = true) :
    Claimed d (Notification.put q i id s) id := by
  refine h.put (.inl hclaimed) ?_ ?_ ?_ ?_ ?_ ?_ ?_
  · intro hbefore
    rw [hconsumed, hbefore]
  · intro hafter
    rw [hclaimed]
    exact h.holding i phase hi (hholds hafter)
  · rw [hclaimed, hconsumed]
    exact h.held
  · rw [hdelivered, hconsumed]
    exact h.delivered
  · rw [honce]
    exact h.once
  · intro hphase
    rw [hconsumed]
    exact hknows (.inl hphase)
  · intro _ hphase
    rw [hconsumed]
    exact hknows (.inr hphase)

/-- Nobody else holds the claim. -/
theorem Claimed.alone (hholds : phase.holds = true) {j : ℕ} {phase' : Phase} (hji : j ≠ i)
    (hj : q.1.handlers j = some ⟨id, phase'⟩) : phase'.holds = false := by
  by_contra hother
  have hclaimed := h.holding j phase' hj (Bool.eq_true_of_not_eq_false hother)
  rw [h.holding i phase hi hholds] at hclaimed
  exact hji (Option.some.inj hclaimed).symm

/-- A call that ends its transaction releases the claim. -/
theorem Claimed.release (hholds : phase.holds = true) (hclaimed : s.claimed = none)
    (hconsumed : q.1.consumed id = true → s.consumed = true)
    (hdelivered : s.history.delivered = s.consumed)
    (honce : s.history.again = (q.2.histories id).again) (hafter : s.phase.holds = false)
    (hknows : s.phase.knows = true → s.consumed = true) (hok : s.phase ≠ .answered .ok) :
    Claimed d (Notification.put q i id s) id := by
  refine h.put (.inr fun j phase' hji hj => h.alone hi hholds hji hj) hconsumed ?_ ?_ hdelivered
    (honce.trans h.once) hknows fun _ hphase => absurd hphase hok
  · rw [hafter]
    intro hfalse
    cases hfalse
  · intro hsome
    exact absurd hclaimed hsome

theorem Claimed.moves (hm : Moves d q.1.clock i id (slotOf q i id phase) a s) :
    Claimed d (Notification.put q i id s) id := by
  cases hm with
  | claims n hphase hclaimed hconsumed =>
    refine h.put (.inr fun j phase' hji hj => ?_) ?_ (fun _ => rfl) (fun _ => hconsumed)
      h.delivered h.once (by simp [Phase.knows]) (by simp)
    · by_contra hother
      have hj' := h.holding j phase' hj (Bool.eq_true_of_not_eq_false hother)
      rw [show q.1.claimed id = none from hclaimed] at hj'
      cases hj'
    · exact fun hbefore => hbefore
  | calls n hphase =>
    obtain rfl : phase = .calling n := hphase
    have hclaimed := h.holding i _ hi rfl
    have hconsumed := h.held (by rw [hclaimed]; exact Option.some_ne_none i)
    refine h.put (.inl rfl) (fun hbefore => hbefore) (fun _ => hclaimed) h.held h.delivered ?_
      (by simp [Phase.knows]) (by simp)
    -- The record is claimed, and so not consumed.
    show ((q.2.histories id).again || (q.2.histories id).delivered) = false
    rw [h.once, h.delivered, hconsumed]
    rfl
  | commits n result phase' hphase hphase' =>
    obtain rfl : phase = .committing n := hphase
    refine h.release hi rfl rfl (fun _ => rfl) rfl rfl ?_ (fun _ => rfl) ?_
    · rcases hphase' with rfl | ⟨e, rfl⟩ <;> rfl
    · rcases hphase' with rfl | ⟨e, rfl⟩ <;> simp
  | fails n e reason hphase =>
    obtain rfl : phase = .committing n := hphase
    exact h.release hi rfl rfl (fun hbefore => hbefore) h.delivered rfl rfl
      (by simp [Phase.knows]) (by simp)
  | rollsBackRetry n reason hphase =>
    obtain rfl : phase = .rollingBackRetry n reason := hphase
    exact h.release hi rfl rfl (fun hbefore => hbefore) h.delivered rfl rfl
      (by simp [Phase.knows]) (by simp)
  | rollsBackReject reason hphase =>
    obtain rfl : phase = .rollingBackReject reason := hphase
    exact h.release hi rfl rfl (fun hbefore => hbefore) h.delivered rfl rfl
      (by simp [Phase.knows]) (by simp)
  | finds n hphase hclaimed hconsumed =>
    exact h.quiet hi rfl rfl rfl rfl (by simp [Phase.holds]) fun _ => hconsumed
  | skips hphase =>
    obtain rfl : phase = .unclaimed := hphase
    exact h.quiet hi rfl rfl rfl rfl (by simp [Phase.holds]) fun _ => h.knows i _ hi rfl
  | settles hphase =>
    obtain rfl : phase = .settled := hphase
    exact h.quiet hi rfl rfl rfl rfl (by simp [Phase.holds]) fun _ => h.knows i _ hi rfl
  | delivers n hphase =>
    obtain rfl : phase = .delivering n := hphase
    exact h.quiet hi rfl rfl rfl rfl (fun _ => rfl) (by simp [Phase.knows])
  | retries n reason hphase =>
    obtain rfl : phase = .delivering n := hphase
    exact h.quiet hi rfl rfl rfl rfl (fun _ => rfl) (by simp [Phase.knows])
  | rejects n reason hphase =>
    obtain rfl : phase = .delivering n := hphase
    exact h.quiet hi rfl rfl rfl rfl (fun _ => rfl) (by simp [Phase.knows])
  | _ => exact h.quiet hi rfl rfl rfl rfl (by simp [Phase.holds]) (by simp [Phase.knows])

end

end

theorem Claimed.step (h : ∀ id, Claimed d q id) (a : Act) (id : Uuid) :
    Claimed d (stepLogged d q a) id := by
  generalize hq : stepLogged d q a = q'
  have hhappens := happens_step (d := d) (q := q) a
  rw [hq] at hhappens
  cases hhappens with
  | nothing heq =>
    rw [heq]
    exact h id
  | elapses nanos heq =>
    rw [heq]
    exact ⟨(h id).holding, (h id).held, (h id).delivered, (h id).once, (h id).knows, (h id).ok⟩
  | hands i id' phase hnone hphase heq =>
    rw [heq]
    by_cases hid : id = id'
    · subst hid
      refine (h id).put (.inl rfl) (fun hbefore => hbefore) ?_ (h id).held (h id).delivered
        (h id).once ?_ ?_
      · rcases hphase with rfl | ⟨rfl, -⟩ <;> simp [slotOf, Phase.holds]
      · rcases hphase with rfl | ⟨rfl, -⟩ <;> simp [slotOf, Phase.knows]
      · intro hrequest hok
        rcases hphase with rfl | ⟨-, hother⟩
        · cases hok
        · exact absurd hrequest hother
    · exact (h id).frame hid
  | moves i id' phase s hi hm heq =>
    rw [heq]
    by_cases hid : id = id'
    · subst hid
      exact (h id).moves hi hm
    · exact (h id).frame hid

end

end Backbone.Notification
