import Backbone.Outbox.DeadLetters

/-!
# Draining to the end

`drain_all` runs passes of `drain_once` until one publishes nothing. A pass that publishes nothing may
have killed a whole batch, or have met a batch of records the transport refuses, with more rows behind
them that were never offered (`not_drained`). `drained_iff` says exactly when the rows are drained: every
pass that does not reach the last pending row has a record to publish.

Reference: `backbone-outbox/src/relay.rs`.
-/

namespace Backbone.Outbox

open Machine
open Workflow (Uuid Time)

section Passes

variable (batch : ℕ) (publish : OutboxRecord → Verdict) (clock : Uuid → Time)

/-- The loop of `drain_once`. An error that is no verdict on the record ends it. -/
def deliver : List OutboxRecord → ℕ → List OutboxRow → Option ℕ × List OutboxRow
  | [], published, rows => (some published, rows)
  | rec :: rest, published, rows =>
    match publish rec with
    | .ok => deliver rest (published + 1) (markRows (clock rec.id) rec.id .ok rows)
    | .publish _ => deliver rest published rows
    | .exhausted reason =>
      deliver rest published (markRows (clock rec.id) rec.id (.exhausted reason) rows)
    | .other => (none, rows)

/-- `drain_once`. -/
def drainOnce (rows : List OutboxRow) : Option ℕ × List OutboxRow :=
  deliver publish clock (readBatch batch rows) 0 rows

/-- `drain_all`. -/
def drainAll : ℕ → List OutboxRow → Option ℕ × List OutboxRow
  | 0, rows => (some 0, rows)
  | passes + 1, rows =>
    match drainOnce batch publish clock rows with
    | (some 0, rows') => (some 0, rows')
    | (some n, rows') =>
      let rest := drainAll passes rows'
      (rest.1.map (n + ·), rest.2)
    | (none, rows') => (none, rows')

/-- The table each pass of `drain_all` finds. -/
def passTables : ℕ → List OutboxRow → List (List OutboxRow)
  | 0, _ => []
  | passes + 1, rows =>
    rows ::
      match drainOnce batch publish clock rows with
      | (some 0, _) | (none, _) => []
      | (some _, rows') => passTables passes rows'

end Passes

variable {batch : ℕ} {publish : OutboxRecord → Verdict} {clock : Uuid → Time}
  {recs : List OutboxRecord} {r : OutboxRow} {published : ℕ} {rows : List OutboxRow} (now : Time)

/-! ## One pass -/

theorem isPending_markPublished (r : OutboxRow) : (r.markPublished now).isPending = false := by
  unfold OutboxRow.markPublished OutboxRow.isPending
  split
  · rfl
  · rename_i h
    rw [Bool.eq_false_of_not_eq_true h, Bool.false_and]

theorem isPending_markDead (reason : String) (r : OutboxRow) :
    (r.markDead now reason).isPending = false := by
  unfold OutboxRow.markDead OutboxRow.isPending
  split
  · exact Bool.and_false _
  · rename_i h
    rw [Bool.eq_false_of_not_eq_true h, Bool.false_and]

/-- An update that leaves no pending row with the id keeps those of other ids. -/
theorem mem_updateRow_pending {id : Uuid} {f : OutboxRow → OutboxRow}
    (hf : ∀ r, (f r).isPending = false) (hr : r.isPending = true) :
    r ∈ updateRow id f rows ↔ r ∈ rows ∧ r.record.id ≠ id := by
  rw [updateRow, List.mem_map]
  constructor
  · rintro ⟨q, hq, heq⟩
    by_cases hid : q.record.id = id
    · rw [if_pos (by simpa using hid)] at heq
      rw [← heq, hf] at hr
      cases hr
    · rw [if_neg (by simpa using hid)] at heq
      subst heq
      exact ⟨hq, hid⟩
  · rintro ⟨hmem, hid⟩
    exact ⟨r, hmem, if_neg (by simpa using hid)⟩

/-- The rows that are pending after the loop, and what it counts. -/
theorem deliver_spec {n : ℕ} {rows' : List OutboxRow}
    (h : deliver publish clock recs published rows = (some n, rows')) :
    n = published + recs.countP (publish · = .ok) ∧ (∀ rec ∈ recs, publish rec ≠ .other) ∧
      ∀ r : OutboxRow, r.isPending = true → (r ∈ rows' ↔ r ∈ rows ∧
        ∀ rec ∈ recs, rec.id = r.record.id → ∃ reason, publish rec = .publish reason) := by
  induction recs generalizing published rows with
  | nil =>
    obtain ⟨hn, rfl⟩ := Prod.mk.inj h
    obtain rfl := Option.some.inj hn
    simp
  | cons rec recs ih =>
    rw [deliver] at h
    cases hverdict : publish rec with
    | other =>
      rw [hverdict] at h
      cases h
    | ok =>
      rw [hverdict] at h
      obtain ⟨hn, hother, hrows⟩ := ih h
      refine ⟨?_, ?_, fun r hr => ?_⟩
      · rw [hn, List.countP_cons_of_pos (by simp [hverdict])]
        omega
      · rw [List.forall_mem_cons]
        exact ⟨by simp [hverdict], hother⟩
      · rw [hrows r hr, markRows, mem_updateRow_pending (isPending_markPublished _) hr,
          List.forall_mem_cons, and_assoc, hverdict]
        simp [eq_comm]
    | publish reason =>
      rw [hverdict] at h
      obtain ⟨hn, hother, hrows⟩ := ih h
      refine ⟨?_, ?_, fun r hr => ?_⟩
      · rw [hn, List.countP_cons_of_neg (by simp [hverdict])]
      · rw [List.forall_mem_cons]
        exact ⟨by simp [hverdict], hother⟩
      · rw [hrows r hr, List.forall_mem_cons, hverdict]
        simp
    | exhausted reason =>
      rw [hverdict] at h
      obtain ⟨hn, hother, hrows⟩ := ih h
      refine ⟨?_, ?_, fun r hr => ?_⟩
      · rw [hn, List.countP_cons_of_neg (by simp [hverdict])]
      · rw [List.forall_mem_cons]
        exact ⟨by simp [hverdict], hother⟩
      · rw [hrows r hr, markRows, mem_updateRow_pending (isPending_markDead _ _) hr,
          List.forall_mem_cons, and_assoc, hverdict]
        simp [eq_comm]

/-! ## The queue a pass reads -/

/-- The pending records, in the order a pass reads them. -/
def pendingQueue (rows : List OutboxRow) : List OutboxRecord :=
  orderByTime (·.occurredAt) (·.id) ((rows.filter (·.isPending)).map (·.record))

/-- `OutboxError::Publish`: the record stays for the next pass. -/
def Verdict.isRefusal : Verdict → Bool
  | .publish _ => true
  | _ => false

theorem Verdict.isRefusal_iff {v : Verdict} : v.isRefusal = true ↔ ∃ reason, v = .publish reason := by
  cases v <;> simp [isRefusal]

variable {rows rows' : List OutboxRow} {n : ℕ}

theorem mem_pendingQueue {rec : OutboxRecord} :
    rec ∈ pendingQueue rows ↔ ∃ r ∈ rows, r.isPending = true ∧ r.record = rec := by
  rw [pendingQueue, orderByTime, List.mem_insertionSort, List.mem_map]
  simp only [List.mem_filter, and_assoc]

theorem length_pendingQueue : (pendingQueue rows).length = pendingCount rows := by
  rw [pendingQueue, orderByTime, List.length_insertionSort, List.length_map, pendingCount,
    List.countP_eq_length_filter]

theorem nodup_ids_pendingQueue (hids : (ids rows).Nodup) :
    ((pendingQueue rows).map (·.id)).Nodup := by
  rw [pendingQueue, orderByTime, ((List.perm_insertionSort _ _).map _).nodup_iff, List.map_map]
  exact hids.sublist (List.filter_sublist.map _)

/-- The order of the queue. -/
theorem pairwise_orderByTime (recs : List OutboxRecord) :
    (orderByTime (·.occurredAt) (·.id) recs).Pairwise fun a b =>
      a.occurredAt < b.occurredAt ∨ a.occurredAt = b.occurredAt ∧ a.id ≤ b.id := by
  have : IsTrans OutboxRecord fun a b =>
      a.occurredAt < b.occurredAt ∨ a.occurredAt = b.occurredAt ∧ a.id ≤ b.id :=
    ⟨fun a b c => by grind⟩
  have : Std.Total fun a b : OutboxRecord =>
      a.occurredAt < b.occurredAt ∨ a.occurredAt = b.occurredAt ∧ a.id ≤ b.id :=
    ⟨fun a b => by grind⟩
  exact List.pairwise_insertionSort _ recs

/-- A table whose pending records are those of a part of an earlier queue has that part as its queue. -/
theorem pendingQueue_eq_of_sublist {part : List OutboxRecord} (hids : (ids rows).Nodup)
    (hids' : (ids rows').Nodup) (hpart : part.Sublist (pendingQueue rows))
    (hmem : ∀ rec, rec ∈ pendingQueue rows' ↔ rec ∈ part) : pendingQueue rows' = part := by
  have hnodup := nodup_ids_pendingQueue hids
  refine List.Perm.eq_of_pairwise (fun a b ha hb hab hba => ?_) (pairwise_orderByTime _)
    ((pairwise_orderByTime _).sublist hpart) ?_
  · have hid : a.id = b.id := by grind
    exact Table.eq_of_key hnodup (hpart.subset ((hmem a).mp ha)) (hpart.subset hb) hid
  · exact (List.perm_ext_iff_of_nodup (nodup_ids_pendingQueue hids').of_map
      (hnodup.of_map.sublist hpart)).mpr hmem

theorem ids_deliver : ids (deliver publish clock recs published rows).2 = ids rows := by
  induction recs generalizing published rows with
  | nil => rfl
  | cons rec recs ih =>
    rw [deliver]
    cases publish rec with
    | ok => exact ih.trans (ids_updateRow (markPublished_record _))
    | publish reason => exact ih
    | exhausted reason => exact ih.trans (ids_updateRow (markDead_record _ _))
    | other => rfl

/-- What a pass leaves in the queue: the records it was refused, and those it did not reach. -/
theorem drainOnce_spec (hids : (ids rows).Nodup)
    (h : drainOnce batch publish clock rows = (some n, rows')) :
    n = ((pendingQueue rows).take batch).countP (publish · = .ok) ∧ (ids rows').Nodup ∧
      pendingQueue rows' = ((pendingQueue rows).take batch).filter (publish · |>.isRefusal) ++
        (pendingQueue rows).drop batch := by
  obtain ⟨hn, -, hpending⟩ := deliver_spec h
  have hids' : (ids rows').Nodup := by
    rw [← show (drainOnce batch publish clock rows).2 = rows' from congrArg Prod.snd h, drainOnce,
      ids_deliver]
    exact hids
  have hsplit := List.take_append_drop batch (pendingQueue rows)
  have hnodup := nodup_ids_pendingQueue hids
  refine ⟨hn.trans (Nat.zero_add _), hids', pendingQueue_eq_of_sublist hids hids' ?_ fun rec => ?_⟩
  · conv => rhs; rw [← hsplit]
    exact List.filter_sublist.append (List.Sublist.refl _)
  · -- A record that is still pending was not read, or was refused.
    have hstill : rec ∈ pendingQueue rows' ↔ rec ∈ pendingQueue rows ∧
        ∀ q ∈ (pendingQueue rows).take batch, q.id = rec.id → (publish q).isRefusal = true := by
      rw [mem_pendingQueue, mem_pendingQueue]
      constructor
      · rintro ⟨r, hr, hpend, rfl⟩
        obtain ⟨hold, hrefused⟩ := (hpending r hpend).mp hr
        exact ⟨⟨r, hold, hpend, rfl⟩, fun q hq hid => Verdict.isRefusal_iff.mpr (hrefused q hq hid)⟩
      · rintro ⟨⟨r, hold, hpend, rfl⟩, hrefused⟩
        exact ⟨r, (hpending r hpend).mpr
          ⟨hold, fun q hq hid => Verdict.isRefusal_iff.mp (hrefused q hq hid)⟩, hpend, rfl⟩
    rw [hstill, List.mem_append, List.mem_filter]
    constructor
    · rintro ⟨hmem, hrefused⟩
      rw [← hsplit, List.mem_append] at hmem
      exact hmem.imp (fun htake => ⟨htake, hrefused rec htake rfl⟩) id
    · rintro (⟨htake, hrefused⟩ | hdrop)
      · refine ⟨List.mem_of_mem_take htake, fun q hq hid => ?_⟩
        rw [Table.eq_of_key hnodup (List.mem_of_mem_take hq) (List.mem_of_mem_take htake) hid]
        exact hrefused
      · refine ⟨List.mem_of_mem_drop hdrop, fun q hq hid => ?_⟩
        -- No record the pass read has the id of one it did not reach.
        rw [← hsplit, List.map_append, List.nodup_append] at hnodup
        exact absurd hid (hnodup.2.2 _ (List.mem_map_of_mem hq) _ (List.mem_map_of_mem hdrop))

/-- A live row whose record is published when it is offered does not die. -/
theorem deliver_keeps (hr : r ∈ rows) (hlive : r.isPending = true ∨ r.isPublished = true)
    (hok : publish r.record = .ok) (hrecs : ∀ rec ∈ recs, rec.id = r.record.id → rec = r.record) :
    ∃ q ∈ (deliver publish clock recs published rows).2, q.record = r.record ∧
      (q.isPending = true ∨ q.isPublished = true) := by
  induction recs generalizing published rows r with
  | nil => exact ⟨r, hr, rfl, hlive⟩
  | cons rec recs ih =>
    have hrest := fun q hq => hrecs q (List.mem_cons_of_mem _ hq)
    rw [deliver]
    cases hverdict : publish rec with
    | ok =>
      by_cases hid : rec.id = r.record.id
      · have hrow : (r.markPublished (clock rec.id)).isPublished = true := by
          unfold OutboxRow.markPublished OutboxRow.isPublished
          cases hpub : r.publishedAt <;> simp [hpub]
        have hmem : r.markPublished (clock rec.id) ∈
            updateRow rec.id (.markPublished (clock rec.id)) rows :=
          List.mem_map.mpr ⟨r, hr, if_pos (by simpa using hid.symm)⟩
        rw [← markPublished_record (clock rec.id) r] at hok hrest ⊢
        exact ih hmem (.inr hrow) hok hrest
      · have hmem : r ∈ updateRow rec.id (.markPublished (clock rec.id)) rows :=
          List.mem_map.mpr ⟨r, hr, if_neg (by simpa using Ne.symm hid)⟩
        exact ih hmem hlive hok hrest
    | publish reason => exact ih hr hlive hok hrest
    | exhausted reason =>
      by_cases hid : rec.id = r.record.id
      · rw [hrecs rec List.mem_cons_self hid, hok] at hverdict
        cases hverdict
      · have hmem : r ∈ updateRow rec.id (.markDead (clock rec.id) reason) rows :=
          List.mem_map.mpr ⟨r, hr, if_neg (by simpa using Ne.symm hid)⟩
        exact ih hmem hlive hok hrest
    | other => exact ⟨r, hr, rfl, hlive⟩

/-! ## All passes -/

/-- What `drain_all` promises of the table it leaves. -/
structure Drained (batch : ℕ) (publish : OutboxRecord → Verdict)
    (start last final : List OutboxRow) : Prop where
  /-- A row still pending was offered in the last pass, and refused. -/
  refused : ∀ r ∈ final, r.isPending = true →
    r.record ∈ readBatch batch last ∧ ∃ reason, publish r.record = .publish reason
  /-- What the transport would take has been delivered. -/
  delivered : ∀ r ∈ start, r.isPending = true → publish r.record = .ok →
    ∃ q ∈ final, q.record = r.record ∧ q.isPublished = true

/-- The records of a queue all get their turn: a batch that does not reach the end of the queue has a
record to publish, and what is left of the queue gets its turn as well. -/
inductive Flows (batch : ℕ) (publish : OutboxRecord → Verdict) : List OutboxRecord → Prop
  | reached {queue : List OutboxRecord} (h : queue.length ≤ batch) : Flows batch publish queue
  | published {queue : List OutboxRecord} (h : ∃ rec ∈ queue.take batch, publish rec = .ok)
      (rest : Flows batch publish
        ((queue.take batch).filter (publish · |>.isRefusal) ++ queue.drop batch)) :
      Flows batch publish queue

variable {queue : List OutboxRecord} {passes : ℕ} {s : State}

theorem flows_iff_of_published (h : ∃ rec ∈ queue.take batch, publish rec = .ok) :
    Flows batch publish queue ↔
      Flows batch publish ((queue.take batch).filter (publish · |>.isRefusal) ++ queue.drop batch) := by
  constructor
  · rintro (hlen | ⟨-, hrest⟩)
    · refine .reached ?_
      rw [List.drop_of_length_le hlen, List.append_nil]
      exact (List.length_filter_le ..).trans (List.length_take_le ..)
    · exact hrest
  · exact .published h

theorem flows_iff_of_not_published (h : ¬ ∃ rec ∈ queue.take batch, publish rec = .ok) :
    Flows batch publish queue ↔ queue.length ≤ batch := by
  constructor
  · rintro (hlen | ⟨hpub, -⟩)
    · exact hlen
    · exact absurd hpub h
  · exact .reached

/-- What is left of a queue after a batch with a record to publish is shorter. -/
theorem length_rest_lt (h : ∃ rec ∈ queue.take batch, publish rec = .ok) :
    ((queue.take batch).filter (publish · |>.isRefusal) ++ queue.drop batch).length <
      queue.length := by
  obtain ⟨rec, hrec, hok⟩ := h
  have hlt : ((queue.take batch).filter (publish · |>.isRefusal)).length <
      (queue.take batch).length := by
    refine List.length_filter_lt_length_iff_exists.mpr ⟨rec, hrec, ?_⟩
    rw [hok]
    exact Bool.false_ne_true
  rw [List.length_append]
  calc _ < (queue.take batch).length + (queue.drop batch).length := Nat.add_lt_add_right hlt _
    _ = queue.length := by rw [← List.length_append, List.take_append_drop]

theorem drainOnce_keeps (hids : (ids rows).Nodup) (hr : r ∈ rows)
    (hlive : r.isPending = true ∨ r.isPublished = true) (hok : publish r.record = .ok) :
    ∃ q ∈ (drainOnce batch publish clock rows).2, q.record = r.record ∧
      (q.isPending = true ∨ q.isPublished = true) := by
  refine deliver_keeps hr hlive hok fun rec hrec hid => ?_
  obtain ⟨q, hq, -, rfl⟩ := mem_pendingQueue.mp (List.mem_of_mem_take hrec)
  rw [Table.eq_of_key hids hq hr hid]

/-! The two ends of a pass that met no database error. -/

theorem drainAll_of_none_published (h : drainOnce batch publish clock rows = (some 0, rows')) :
    drainAll batch publish clock (passes + 1) rows = (some 0, rows') ∧
      passTables batch publish clock (passes + 1) rows = [rows] := by
  rw [drainAll, passTables, h]
  exact ⟨rfl, rfl⟩

theorem drainAll_of_published (passes : ℕ)
    (h : drainOnce batch publish clock rows = (some (n + 1), rows')) :
    drainAll batch publish clock (passes + 1) rows =
        ((drainAll batch publish clock passes rows').1.map (n + 1 + ·),
          (drainAll batch publish clock passes rows').2) ∧
      passTables batch publish clock (passes + 1) rows =
        rows :: passTables batch publish clock passes rows' := by
  rw [drainAll, passTables, h]
  exact ⟨rfl, rfl⟩

theorem drainAll_of_failed (h : drainOnce batch publish clock rows = (none, rows')) :
    drainAll batch publish clock (passes + 1) rows = (none, rows') := by
  rw [drainAll, h]

theorem drainAll_keeps (passes : ℕ) (hids : (ids rows).Nodup) (hr : r ∈ rows)
    (hlive : r.isPending = true ∨ r.isPublished = true) (hok : publish r.record = .ok) :
    ∃ q ∈ (drainAll batch publish clock passes rows).2, q.record = r.record ∧
      (q.isPending = true ∨ q.isPublished = true) := by
  induction passes generalizing rows r with
  | zero => exact ⟨r, hr, rfl, hlive⟩
  | succ passes ih =>
    obtain ⟨answer, rows', hpass⟩ : ∃ answer rows',
        drainOnce batch publish clock rows = (answer, rows') := ⟨_, _, rfl⟩
    have hkept : ∃ q ∈ (drainOnce batch publish clock rows).2, q.record = r.record ∧
        (q.isPending = true ∨ q.isPublished = true) := drainOnce_keeps hids hr hlive hok
    rw [hpass] at hkept
    obtain ⟨q, hq, hrec, hlive'⟩ := hkept
    rcases answer with _ | n | n
    · rw [drainAll_of_failed hpass]
      exact ⟨q, hq, hrec, hlive'⟩
    · rw [(drainAll_of_none_published hpass).1]
      exact ⟨q, hq, hrec, hlive'⟩
    · rw [(drainAll_of_published passes hpass).1]
      obtain ⟨-, hids', -⟩ := drainOnce_spec hids hpass
      rw [← hrec] at hok ⊢
      exact ih hids' hq hlive' hok

/-- A pass with nothing to publish leaves behind only what it was refused if it read the whole queue. -/
theorem refused_iff_reached (hids : (ids rows).Nodup)
    (hpass : drainOnce batch publish clock rows = (some 0, rows')) :
    (∀ r ∈ rows', r.isPending = true →
      r.record ∈ readBatch batch rows ∧ ∃ reason, publish r.record = .publish reason) ↔
      (pendingQueue rows).length ≤ batch := by
  obtain ⟨-, -, hqueue⟩ := drainOnce_spec hids hpass
  constructor
  · intro hrefused
    -- A record beyond the batch would still be pending, and was not offered.
    by_contra hlong
    obtain ⟨rec, hrec⟩ := List.exists_mem_of_ne_nil ((pendingQueue rows).drop batch)
      (by rw [Ne, List.drop_eq_nil_iff]; exact hlong)
    have hleft : rec ∈ pendingQueue rows' := by
      rw [hqueue]
      exact List.mem_append_right _ hrec
    obtain ⟨r, hr, hpend, rfl⟩ := mem_pendingQueue.mp hleft
    have hnodup := nodup_ids_pendingQueue hids
    rw [← List.take_append_drop batch (pendingQueue rows), List.map_append,
      List.nodup_append] at hnodup
    exact hnodup.2.2 _ (List.mem_map_of_mem (hrefused r hr hpend).1) _ (List.mem_map_of_mem hrec) rfl
  · intro hlen r hr hpend
    have hleft : r.record ∈ pendingQueue rows' := mem_pendingQueue.mpr ⟨r, hr, hpend, rfl⟩
    rw [hqueue, List.drop_of_length_le hlen, List.append_nil, List.mem_filter] at hleft
    exact ⟨hleft.1, Verdict.isRefusal_iff.mp hleft.2⟩

/-- With more passes than pending rows, the last pass leaves behind what it was refused exactly when the
queue flows. -/
theorem refused_iff_flows {total : ℕ} (hids : (ids rows).Nodup)
    (hpasses : pendingCount rows < passes)
    (hok : (drainAll batch publish clock passes rows).1 = some total) :
    (∃ last, (passTables batch publish clock passes rows).getLast? = some last ∧
      ∀ r ∈ (drainAll batch publish clock passes rows).2, r.isPending = true →
        r.record ∈ readBatch batch last ∧ ∃ reason, publish r.record = .publish reason) ↔
      Flows batch publish (pendingQueue rows) := by
  induction passes generalizing rows total with
  | zero => omega
  | succ passes ih =>
    obtain ⟨answer, rows', hpass⟩ : ∃ answer rows',
        drainOnce batch publish clock rows = (answer, rows') := ⟨_, _, rfl⟩
    rcases answer with _ | n | n
    · rw [drainAll_of_failed hpass] at hok
      cases hok
    · obtain ⟨hn, -, -⟩ := drainOnce_spec hids hpass
      have hnone : ¬ ∃ rec ∈ (pendingQueue rows).take batch, publish rec = .ok := by
        rintro ⟨rec, hrec, hpub⟩
        exact List.countP_eq_zero.mp hn.symm rec hrec (decide_eq_true hpub)
      rw [flows_iff_of_not_published hnone, ← refused_iff_reached hids hpass,
        (drainAll_of_none_published hpass).1, (drainAll_of_none_published hpass).2]
      constructor
      · rintro ⟨last, hlast, hrefused⟩
        obtain rfl := Option.some.inj hlast
        exact hrefused
      · exact fun hrefused => ⟨rows, rfl, hrefused⟩
    · obtain ⟨hn, hids', hqueue⟩ := drainOnce_spec hids hpass
      have hsome : ∃ rec ∈ (pendingQueue rows).take batch, publish rec = .ok := by
        obtain ⟨rec, hrec, hpub⟩ := List.countP_pos_iff.mp (Nat.lt_of_lt_of_eq (Nat.succ_pos n) hn)
        exact ⟨rec, hrec, of_decide_eq_true hpub⟩
      -- One row fewer is pending, so the passes that are left are enough.
      have hfewer : pendingCount rows' < passes := by
        have hlt := length_rest_lt hsome
        rw [← hqueue, length_pendingQueue, length_pendingQueue] at hlt
        omega
      have hne : passTables batch publish clock passes rows' ≠ [] := by
        obtain _ | passes := passes
        · omega
        · exact List.cons_ne_nil _ _
      obtain ⟨hall, htables⟩ := drainAll_of_published passes hpass
      rw [hall] at hok
      obtain ⟨m, hm, -⟩ := Option.map_eq_some_iff.mp hok
      rw [flows_iff_of_published hsome, ← hqueue, ← ih hids' hfewer hm, hall, htables,
        List.getLast?_cons_of_ne_nil hne]

/-- With as many passes as it can use, `drain_all` drains exactly the outboxes whose queue flows. -/
theorem drained_iff {passes total : ℕ} (hids : (ids rows).Nodup)
    (hpasses : pendingCount rows < passes)
    (hok : (drainAll batch publish clock passes rows).1 = some total) :
    (∃ last, (passTables batch publish clock passes rows).getLast? = some last ∧
      Drained batch publish rows last (drainAll batch publish clock passes rows).2) ↔
      Flows batch publish (pendingQueue rows) := by
  rw [← refused_iff_flows hids hpasses hok]
  constructor
  · rintro ⟨last, hlast, hdrained⟩
    exact ⟨last, hlast, hdrained.refused⟩
  · rintro ⟨last, hlast, hrefused⟩
    refine ⟨last, hlast, hrefused, fun r hr hpend hpub => ?_⟩
    have hkept : ∃ q ∈ (drainAll batch publish clock passes rows).2, q.record = r.record ∧
        (q.isPending = true ∨ q.isPublished = true) := drainAll_keeps passes hids hr (.inl hpend) hpub
    obtain ⟨q, hq, hrec, hlive⟩ := hkept
    refine ⟨q, hq, hrec, hlive.resolve_left fun hqpend => ?_⟩
    obtain ⟨-, reason, hrefusal⟩ := hrefused q hq hqpend
    rw [hrec, hpub] at hrefusal
    cases hrefusal

/-- An event staged after `settled`. -/
def refunded : OutboxRecord :=
  { settled with id := 2, eventType := "PaymentRefunded", occurredAt := 1 }

/-- The two events, pending. -/
def twoPending : List OutboxRow := [{ record := settled }, { record := refunded }]

/-- A transport that takes the older event and refuses the other. -/
def refusesLast (rec : OutboxRecord) : Verdict := if rec.id = 1 then .ok else .publish "down"

/-- A transport that gives up on the older event and would take the other. -/
def killsFirst (rec : OutboxRecord) : Verdict := if rec.id = 1 then .exhausted "no route" else .ok

theorem drained_iff_refusesLast :
    ∃ last, (passTables 1 refusesLast (fun _ => 5) 3 twoPending).getLast? = some last ∧
      Drained 1 refusesLast twoPending last
        (drainAll 1 refusesLast (fun _ => 5) 3 twoPending).2 := by
  have hok : (drainAll 1 refusesLast (fun _ => 5) 3 twoPending).1 = some 1 := rfl
  exact (drained_iff (by decide) (by decide) hok).mpr
    (.published ⟨settled, .head _, rfl⟩ (.reached (by decide)))

/-- Nothing is published in the first pass, which ends the drain before the other event is offered. -/
theorem not_drained :
    (drainAll 1 killsFirst (fun _ => 5) 3 twoPending).1 = some 0 ∧
      ¬ ∃ last, (passTables 1 killsFirst (fun _ => 5) 3 twoPending).getLast? = some last ∧
        Drained 1 killsFirst twoPending last
          (drainAll 1 killsFirst (fun _ => 5) 3 twoPending).2 := by
  refine ⟨rfl, ?_⟩
  rintro ⟨last, -, hdrained⟩
  obtain ⟨-, reason, hrefused⟩ := hdrained.refused { record := refunded } (.tail _ (.head _)) rfl
  cases hrefused

/-! ## A drain is a run of one worker -/

/-- Where a pass leaves its worker. -/
def Worker.ended : Option ℕ → Worker
  | some published => .returned published
  | none => .idle

section

variable {p : ℕ} {s : State}

variable (hfree : ∃ answer, s.workers p = .ended answer)
include hfree

end

end Backbone.Outbox
