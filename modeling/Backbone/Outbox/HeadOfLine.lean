import Mathlib.Algebra.Order.BigOperators.Group.List
import Mathlib.Algebra.Order.Group.Nat
import Backbone.Outbox.DrainAll

/-!
# Who gets a turn

The relay passes again and again, each time over the oldest `batch` pending rows, and a row the
transport refuses stays where it is. Records the transport refuses forever gather at the head of the
queue: once there are `batch` of them, no pass reads further, and nothing behind them is ever offered
(`not_offered`). `offered_iff` counts: a record gets its turn exactly when fewer than `batch` refused
records stand before it.

Reference: `backbone-outbox/src/{relay,runner}.rs`.
-/

namespace Backbone.Outbox

open Workflow (Uuid Time)

/-! ## Passes -/

/-- The records a pass hands to `publish`, of those it read: an error that is no verdict on the record
ends it. -/
def offered (publish : OutboxRecord → Verdict) : List OutboxRecord → List OutboxRecord
  | [] => []
  | rec :: rest => rec :: if publish rec = .other then [] else offered publish rest

/-- A transport that refuses some records forever, with a reason, and takes all others. -/
def refusing (refused : OutboxRecord → Option String) (rec : OutboxRecord) : Verdict :=
  match refused rec with
  | some reason => .publish reason
  | none => .ok

/-- The table after the first passes of the relay, the `n`-th at the times `clock n`. -/
def tableAfter (batch : ℕ) (publish : OutboxRecord → Verdict) (clock : ℕ → Uuid → Time)
    (rows : List OutboxRow) : ℕ → List OutboxRow
  | 0 => rows
  | passes + 1 => (drainOnce batch publish (clock passes)
      (tableAfter batch publish clock rows passes)).2

/-- How many pending records before `rec`, in the order a pass reads them, the transport refuses. -/
def refusedBefore (refused : OutboxRecord → Option String) (rows : List OutboxRow)
    (rec : OutboxRecord) : ℕ :=
  (rows.filter fun r => r.isPending && (refused r.record).isSome).countP fun r =>
    r.record.occurredAt < rec.occurredAt ∨
      r.record.occurredAt = rec.occurredAt ∧ r.record.id < rec.id

/-! ## The queue from pass to pass -/

/-- What one pass leaves of the queue. -/
def afterPass (batch : ℕ) (stays : OutboxRecord → Bool) (queue : List OutboxRecord) :
    List OutboxRecord :=
  (queue.take batch).filter stays ++ queue.drop batch

section Queue

variable {batch : ℕ} {stays : OutboxRecord → Bool} {front back : List OutboxRecord}
  {rec : OutboxRecord}

/-- A pass that does not reach a record keeps it, behind what it refused of the records before. -/
theorem afterPass_of_le (h : batch ≤ front.length) :
    afterPass batch stays (front ++ rec :: back) = afterPass batch stays front ++ rec :: back := by
  rw [afterPass, afterPass, List.take_append_of_le_length h, List.drop_append_of_le_length h,
    List.append_assoc]

theorem countP_afterPass : (afterPass batch stays front).countP stays = front.countP stays := by
  have hsplit : front.countP stays =
      (front.take batch).countP stays + (front.drop batch).countP stays := by
    rw [← List.countP_append, List.take_append_drop]
  rw [afterPass, List.countP_append, hsplit, List.countP_filter]
  simp

/-- A batch with a record that does not stay makes the queue shorter. -/
theorem length_afterPass_lt (hlen : batch ≤ front.length) (h : front.countP stays < batch) :
    (afterPass batch stays front).length < front.length := by
  have hstay : ((front.take batch).filter stays).length ≤ front.countP stays := by
    rw [← List.countP_eq_length_filter]
    exact (List.take_sublist batch front).countP_le
  rw [afterPass, List.length_append, List.length_drop]
  omega

/-- A record gets into a batch exactly when fewer than a batch of those before it stay. -/
theorem reaches_iff_countP (hnodup : (front ++ rec :: back).Nodup) :
    (∃ n, rec ∈ ((afterPass batch stays)^[n] (front ++ rec :: back)).take batch) ↔
      front.countP stays < batch := by
  constructor
  · rintro ⟨n, hn⟩
    by_contra hmany
    rw [not_lt] at hmany
    induction n generalizing front with
    | zero =>
      have hlen : batch ≤ front.length := hmany.trans List.countP_le_length
      rw [Function.iterate_zero, id_eq, List.take_append_of_le_length hlen] at hn
      exact (List.nodup_append.mp hnodup).2.2 rec (List.mem_of_mem_take hn) rec List.mem_cons_self rfl
    | succ n ih =>
      have hlen : batch ≤ front.length := hmany.trans List.countP_le_length
      rw [Function.iterate_succ_apply, afterPass_of_le hlen] at hn
      refine ih (hnodup.sublist ?_) hn (countP_afterPass.symm ▸ hmany)
      refine List.Sublist.append_right ?_ _
      conv => rhs; rw [← List.take_append_drop batch front]
      exact List.filter_sublist.append (List.Sublist.refl _)
  · intro hfew
    induction hlen : front.length using Nat.strong_induction_on generalizing front with
    | _ len ih =>
      by_cases hshort : front.length < batch
      · refine ⟨0, ?_⟩
        obtain ⟨k, hk⟩ : ∃ k, batch - front.length = k + 1 := ⟨batch - front.length - 1, by omega⟩
        rw [Function.iterate_zero, id_eq, List.take_append, hk, List.take_succ_cons]
        exact List.mem_append_right _ List.mem_cons_self
      · -- A record before it goes, so the pass brings it nearer to the head.
        rw [not_lt] at hshort
        have hnodup' : (afterPass batch stays front ++ rec :: back).Nodup := by
          refine hnodup.sublist (List.Sublist.append_right ?_ _)
          conv => rhs; rw [← List.take_append_drop batch front]
          exact List.filter_sublist.append (List.Sublist.refl _)
        have hlt := length_afterPass_lt hshort hfew
        obtain ⟨n, hn⟩ := ih _ (hlen ▸ hlt) hnodup' (countP_afterPass.symm ▸ hfew) rfl
        refine ⟨n + 1, ?_⟩
        rw [Function.iterate_succ_apply, afterPass_of_le hshort]
        exact hn

end Queue

/-! ## The relay's queue -/

section Relay

variable {batch : ℕ} {refused : OutboxRecord → Option String} {clock : ℕ → Uuid → Time}
  {rows : List OutboxRow}

theorem refusing_ne_other (rec : OutboxRecord) : refusing refused rec ≠ .other := by
  unfold refusing
  cases refused rec <;> exact Verdict.noConfusion

theorem isRefusal_refusing (rec : OutboxRecord) :
    (refusing refused rec).isRefusal = (refused rec).isSome := by
  unfold refusing
  cases refused rec <;> rfl

/-- Such a transport is offered all a pass reads. -/
theorem offered_refusing (recs : List OutboxRecord) : offered (refusing refused) recs = recs := by
  induction recs with
  | nil => rfl
  | cons rec recs ih => rw [offered, if_neg (refusing_ne_other rec), ih]

theorem deliver_refusing (clock : Uuid → Time) (recs : List OutboxRecord) (published : ℕ)
    (rows : List OutboxRow) :
    ∃ n rows', deliver (refusing refused) clock recs published rows = (some n, rows') := by
  induction recs generalizing published rows with
  | nil => exact ⟨published, rows, rfl⟩
  | cons rec recs ih =>
    cases hrefused : refused rec with
    | some reason =>
      have hverdict : refusing refused rec = .publish reason := by rw [refusing, hrefused]
      rw [deliver, hverdict]
      exact ih published rows
    | none =>
      have hverdict : refusing refused rec = .ok := by rw [refusing, hrefused]
      rw [deliver, hverdict]
      exact ih (published + 1) _

/-- The queue a pass finds. -/
theorem pendingQueue_tableAfter (hids : (ids rows).Nodup) (passes : ℕ) :
    (ids (tableAfter batch (refusing refused) clock rows passes)).Nodup ∧
      pendingQueue (tableAfter batch (refusing refused) clock rows passes) =
        (afterPass batch (refused · |>.isSome))^[passes] (pendingQueue rows) := by
  induction passes with
  | zero => exact ⟨hids, rfl⟩
  | succ passes ih =>
    obtain ⟨hnodup, hqueue⟩ := ih
    obtain ⟨n, rows', hpass⟩ := @deliver_refusing refused (clock passes)
      (readBatch batch (tableAfter batch (refusing refused) clock rows passes)) 0
      (tableAfter batch (refusing refused) clock rows passes)
    obtain ⟨-, hnodup', hqueue'⟩ := drainOnce_spec hnodup hpass
    simp only [isRefusal_refusing] at hqueue'
    have htable : tableAfter batch (refusing refused) clock rows (passes + 1) = rows' :=
      congrArg Prod.snd hpass
    rw [htable, Function.iterate_succ_apply', ← hqueue]
    exact ⟨hnodup', hqueue'⟩

/-- The queue cut at one of its records. -/
theorem refusedBefore_eq {front back : List OutboxRecord} {rec : OutboxRecord}
    (hids : (ids rows).Nodup) (hqueue : pendingQueue rows = front ++ rec :: back) :
    refusedBefore refused rows rec = front.countP (refused · |>.isSome) := by
  have hperm : ((rows.filter (·.isPending)).map (·.record)).Perm (front ++ rec :: back) := by
    rw [← hqueue]
    exact (List.perm_insertionSort ..).symm
  have hnodup := nodup_ids_pendingQueue hids
  have hsorted : (pendingQueue rows).Pairwise _ := pairwise_orderByTime _
  rw [hqueue, List.map_append, List.map_cons, List.nodup_append, List.nodup_cons] at hnodup
  rw [hqueue, List.pairwise_append, List.pairwise_cons] at hsorted
  obtain ⟨-, ⟨hrec, -⟩, hapart⟩ := hnodup
  obtain ⟨-, ⟨hback, -⟩, hfront⟩ := hsorted
  let before (q : OutboxRecord) : Bool :=
    q.occurredAt < rec.occurredAt ∨ q.occurredAt = rec.occurredAt ∧ q.id < rec.id
  have hcount : refusedBefore refused rows rec =
      ((rows.filter (·.isPending)).map (·.record)).countP fun q =>
        before q && (refused q).isSome := by
    rw [refusedBefore, List.countP_map, List.countP_filter, List.countP_filter]
    refine List.countP_congr fun r _ => ?_
    simp [before, and_assoc, and_comm]
  have hin : ∀ q ∈ front, before q = true := by
    intro q hq
    have hne : q.id ≠ rec.id :=
      hapart _ (List.mem_map_of_mem hq) _ List.mem_cons_self
    have hle := hfront q hq rec List.mem_cons_self
    grind
  have hout : ∀ q ∈ rec :: back, before q = false := by
    rw [List.forall_mem_cons]
    refine ⟨by simp [before], fun q hq => ?_⟩
    have hle := hback q hq
    grind
  rw [hcount, hperm.countP_eq, List.countP_append]
  have hnone : (rec :: back).countP (fun q => before q && (refused q).isSome) = 0 := by
    rw [List.countP_eq_zero]
    intro q hq
    simp [hout q hq]
  rw [hnone, Nat.add_zero]
  exact List.countP_congr fun q hq => by rw [hin q hq, Bool.true_and]

/-- One record gets its turn exactly when fewer than a batch of refused records stand before it. -/
theorem reached_iff_refusedBefore (hids : (ids rows).Nodup) {r : OutboxRow} (hr : r ∈ rows)
    (hpend : r.isPending = true) :
    (∃ pass, r.record ∈ offered (refusing refused)
        (readBatch batch (tableAfter batch (refusing refused) clock rows pass))) ↔
      refusedBefore refused rows r.record < batch := by
  have hmem : r.record ∈ pendingQueue rows := mem_pendingQueue.mpr ⟨r, hr, hpend, rfl⟩
  obtain ⟨front, back, hqueue⟩ := List.append_of_mem hmem
  have hnodup : (front ++ r.record :: back).Nodup := by
    rw [← hqueue]
    exact (nodup_ids_pendingQueue hids).of_map
  rw [refusedBefore_eq hids hqueue, ← @reaches_iff_countP batch _ _ _ _ hnodup]
  refine exists_congr fun pass => ?_
  rw [offered_refusing, ← hqueue, ← (@pendingQueue_tableAfter batch refused clock rows hids pass).2]
  rfl

/-- The relay gets around to every pending record exactly when no batch of refused records stands
before one. -/
theorem offered_iff (batch : ℕ) (refused : OutboxRecord → Option String) (clock : ℕ → Uuid → Time)
    (hids : (ids rows).Nodup) :
    (∃ passes, ∀ r ∈ rows, r.isPending = true → ∃ pass < passes,
        r.record ∈ offered (refusing refused)
          (readBatch batch (tableAfter batch (refusing refused) clock rows pass))) ↔
      ∀ r ∈ rows, r.isPending = true → refusedBefore refused rows r.record < batch := by
  constructor
  · rintro ⟨passes, hall⟩ r hr hpend
    obtain ⟨pass, -, hpass⟩ := hall r hr hpend
    exact (reached_iff_refusedBefore hids hr hpend).mp ⟨pass, hpass⟩
  · intro hfew
    -- A bound on the passes for each row, and their sum for all of them.
    have hone : ∀ r : OutboxRow, ∃ passes, r ∈ rows → r.isPending = true → ∃ pass < passes,
        r.record ∈ offered (refusing refused)
          (readBatch batch (tableAfter batch (refusing refused) clock rows pass)) := by
      intro r
      by_cases hr : r ∈ rows ∧ r.isPending = true
      · obtain ⟨pass, hpass⟩ := (@reached_iff_refusedBefore _ _ clock _ hids _ hr.1 hr.2).mpr
          (hfew r hr.1 hr.2)
        exact ⟨pass + 1, fun _ _ => ⟨pass, Nat.lt_succ_self pass, hpass⟩⟩
      · exact ⟨0, fun hmem hpend => absurd ⟨hmem, hpend⟩ hr⟩
    choose bound hbound using hone
    refine ⟨(rows.map bound).sum, fun r hr hpend => ?_⟩
    obtain ⟨pass, hlt, hpass⟩ := hbound r hr hpend
    exact ⟨pass, hlt.trans_le (List.single_le_sum (fun _ _ => Nat.zero_le _) _ (List.mem_map_of_mem hr)), hpass⟩

end Relay

/-- A transport that refuses one record. -/
def refusesOne (id : Uuid) (rec : OutboxRecord) : Option String :=
  if rec.id = id then some "down" else none

/-- The refused event is the newer one, so both get their turn, one record at a time. -/
theorem offered_iff_twoPending : ∃ passes, ∀ r ∈ twoPending, r.isPending = true → ∃ pass < passes,
    r.record ∈ offered (refusing (refusesOne 2))
      (readBatch 1 (tableAfter 1 (refusing (refusesOne 2)) (fun _ _ => 5) twoPending pass)) := by
  refine (offered_iff 1 (refusesOne 2) (fun _ _ => 5) (by decide)).mpr ?_
  have hall : (twoPending.all fun r => decide (refusedBefore (refusesOne 2) twoPending r.record < 1)) =
      true := rfl
  exact fun r hr _ => of_decide_eq_true (List.all_eq_true.mp hall r hr)

/-- The older event is refused, and the newer one is never offered. -/
theorem not_offered : ¬ ∃ passes, ∀ r ∈ twoPending, r.isPending = true → ∃ pass < passes,
    r.record ∈ offered (refusing (refusesOne 1))
      (readBatch 1 (tableAfter 1 (refusing (refusesOne 1)) (fun _ _ => 5) twoPending pass)) := by
  rintro ⟨passes, hall⟩
  obtain ⟨pass, -, hpass⟩ := hall { record := refunded } (.tail _ (.head _)) rfl
  have hfew : refusedBefore (refusesOne 1) twoPending refunded < 1 :=
    (reached_iff_refusedBefore (by decide) (r := { record := refunded }) (.tail _ (.head _)) rfl).mp
      ⟨pass, hpass⟩
  exact absurd hfew (by decide)

end Backbone.Outbox
