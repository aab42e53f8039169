import Backbone.Outbox.Relay

/-!
# Delivered at least once, applied once

The relay offers a row until a `publish` of it answers `Ok` and the mark is written; workers may offer
it twice, and a crash between the answer and the mark offers it again. A consumer claims the event in
the inbox in the transaction of its effect, so however often it is handed the event it applies it once,
and whatever made `publish` answer `Ok` has been applied by then: `exactly_once`.
-/

namespace Backbone.Outbox

open Workflow (Uuid)

/-- The publish calls whose mark set `published_at`, each with the consumers it covered, kept beside
the run. -/
abbrev Marks := List (Uuid × List String)

/-- A worker that marks an unpublished row leaves the cover of the publish call that made it. -/
def noteMark (past : Marks) (s : State) (a : Act) (_ : State) : Marks :=
  match a with
  | .mark p _ =>
    match s.workers p with
    | .answered rec cover .ok _ _ =>
      if s.rows.any fun r => r.record.id == rec.id && !r.isPublished then past ++ [(rec.id, cover)]
      else past
    | _ => past
  | _ => past

/-- What a worker knows about the consumers its publish call covers. -/
def Worker.Knows (effects : List (String × Uuid)) : Worker → Prop
  | .publishing rec cover todo _ _ => ∀ c ∈ cover, c ∈ todo ∨ (c, rec.id) ∈ effects
  | .answered rec cover .ok _ _ => ∀ c ∈ cover, (c, rec.id) ∈ effects
  | _ => True

section

variable {effects effects' : List (String × Uuid)} {x : Worker} {s : State}

theorem Worker.Knows.mono (h : x.Knows effects) (hsub : ∀ y ∈ effects, y ∈ effects') :
    x.Knows effects' := by
  cases x with
  | publishing rec cover todo rest n => exact fun c hc => (h c hc).imp id (hsub _)
  | answered rec cover verdict rest n =>
    cases verdict with
    | ok => exact fun c hc => hsub _ (h c hc)
    | _ => trivial
  | _ => trivial

theorem Worker.knows_next (rest : List OutboxRecord) (n : ℕ) : (Worker.next rest n).Knows effects := by
  unfold Worker.next
  split <;> trivial

theorem Worker.knows_afterMark (verdict : Verdict) (rest : List OutboxRecord) (n : ℕ) :
    (Worker.afterMark verdict rest n).Knows effects := by
  cases verdict with
  | other => trivial
  | _ => exact Worker.knows_next _ _

/-- The inbox, the effects and the workers. -/
structure Applied (s : State) : Prop where
  /-- An effect is applied in the transaction that claims its event. -/
  claimed : s.effects = s.inbox
  once : s.effects.Nodup
  workers : ∀ p, (s.workers p).Knows s.effects

theorem Applied.setWorker (h : Applied s) (p : ℕ) (hx : x.Knows s.effects) :
    Applied (s.setWorker p x) := by
  refine ⟨h.claimed, h.once, fun q => ?_⟩
  by_cases hq : q = p
  · subst hq
    simp only [State.setWorker, Function.update_self]
    exact hx
  · simp only [State.setWorker, Function.update_of_ne hq]
    exact h.workers q

/-- `once` claims the event and applies its effect, unless it was claimed before. -/
theorem Applied.once_claims (h : Applied s) (c : String) (event : Uuid) :
    Applied (s.once c event) ∧ (c, event) ∈ (s.once c event).effects ∧
      ∀ y ∈ s.effects, y ∈ (s.once c event).effects := by
  unfold State.once
  split
  · rename_i hin
    rw [List.contains_iff_mem] at hin
    exact ⟨h, h.claimed ▸ hin, fun _ => id⟩
  · rename_i hnot
    rw [List.contains_iff_mem] at hnot
    refine ⟨⟨by rw [h.claimed], ?_, fun p => (h.workers p).mono fun _ => List.mem_append_left _⟩,
      List.mem_append_right _ (List.mem_singleton_self _), fun _ => List.mem_append_left _⟩
    refine List.nodup_append.mpr ⟨h.once, List.nodup_singleton _, ?_⟩
    rintro y hy _ hy' rfl
    exact hnot (h.claimed ▸ List.mem_singleton.mp hy' ▸ hy)

/-- Every step keeps the effects in line with the inbox, and takes none back. -/
theorem Applied.step (h : Applied s) (a : Act) :
    Applied (s.step a) ∧ ∀ y ∈ s.effects, y ∈ (s.step a).effects := by
  cases a with
  | stage actingUnit rec => exact ⟨⟨h.claimed, h.once, h.workers⟩, fun _ => id⟩
  | read p batch =>
    simp only [State.step]
    split
    · exact ⟨h.setWorker p (Worker.knows_next _ _), fun _ => id⟩
    · exact ⟨h.setWorker p (Worker.knows_next _ _), fun _ => id⟩
    · exact ⟨h, fun _ => id⟩
  | offer p cover =>
    simp only [State.step]
    split
    · exact ⟨h.setWorker p fun c hc => .inl hc, fun _ => id⟩
    · exact ⟨h, fun _ => id⟩
  | handle p =>
    simp only [State.step]
    split
    · rename_i rec cover c todo rest n hp
      obtain ⟨happlied, hin, hsub⟩ := h.once_claims c rec.id
      refine ⟨happlied.setWorker p fun d hd => ?_, hsub⟩
      have hknows := h.workers p
      rw [hp] at hknows
      rcases hknows d hd with htodo | hdone
      · rcases List.mem_cons.mp htodo with rfl | htodo
        · exact .inr hin
        · exact .inl htodo
      · exact .inr (hsub _ hdone)
    · exact ⟨h, fun _ => id⟩
  | answer p verdict =>
    simp only [State.step]
    split
    · rename_i rec cover todo rest n hp
      split
      · exact ⟨h, fun _ => id⟩
      · rename_i hverdict
        refine ⟨h.setWorker p ?_, fun _ => id⟩
        cases verdict with
        | ok =>
          have hknows := h.workers p
          rw [hp] at hknows
          obtain rfl : todo = [] := by simpa using hverdict
          exact fun c hc => (hknows c hc).resolve_left List.not_mem_nil
        | _ => trivial
    · exact ⟨h, fun _ => id⟩
  | mark p now =>
    simp only [State.step]
    split
    · have hrows : ∀ rows, Applied { s with rows } := fun _ => ⟨h.claimed, h.once, h.workers⟩
      exact ⟨(hrows _).setWorker p (Worker.knows_afterMark _ _ _), fun _ => id⟩
    · exact ⟨h, fun _ => id⟩
  | reemit event => exact ⟨⟨h.claimed, h.once, h.workers⟩, fun _ => id⟩
  | reemitAll => exact ⟨⟨h.claimed, h.once, h.workers⟩, fun _ => id⟩
  | crash p => exact ⟨h.setWorker p trivial, fun _ => id⟩

end

/-! ## Published rows -/

theorem markDead_isPublished (now : Workflow.Time) (reason : String) (r : OutboxRow) :
    (r.markDead now reason).isPublished = r.isPublished := by
  unfold OutboxRow.markDead
  split <;> rfl

theorem revive_isPublished (r : OutboxRow) : r.revive.isPublished = r.isPublished := by
  unfold OutboxRow.revive
  split <;> rfl

/-- A row of an update that leaves `published_at` alone was as published before. -/
theorem exists_of_mem_updateRow {event : Uuid} {f : OutboxRow → OutboxRow} {rows : List OutboxRow}
    (hrec : ∀ q, (f q).record = q.record) (hpub : ∀ q, (f q).isPublished = q.isPublished)
    {r : OutboxRow} (hr : r ∈ updateRow event f rows) :
    ∃ q ∈ rows, q.record.id = r.record.id ∧ q.isPublished = r.isPublished := by
  obtain ⟨q, hq, rfl⟩ := List.mem_map.mp hr
  refine ⟨q, hq, ?_⟩
  split
  · rw [hrec, hpub]; exact ⟨rfl, rfl⟩
  · exact ⟨rfl, rfl⟩

variable {s : State}

/-- A published row was published before, or the step is the mark of a worker whose `publish`
answered `Ok`. -/
theorem RowsStep.published_before {a : Act} {rows' : List OutboxRow}
    (h : RowsStep s a rows') {r : OutboxRow} (hr : r ∈ rows') (hp : r.isPublished = true) :
    (∃ q ∈ s.rows, q.record.id = r.record.id ∧ q.isPublished = true) ∨
    ∃ p now rec cover rest n, a = .mark p now ∧ s.workers p = .answered rec cover .ok rest n ∧
      r.record.id = rec.id ∧ (s.rows.any fun q => q.record.id == rec.id && !q.isPublished) = true := by
  cases h with
  | same => exact .inl ⟨r, hr, rfl, hp⟩
  | staged row id fresh pending =>
    rcases List.mem_append.mp hr with hr | hr
    · exact .inl ⟨r, hr, rfl, hp⟩
    · rw [List.mem_singleton.mp hr] at hp
      simp only [OutboxRow.isPending, Bool.and_eq_true, Option.isNone_iff_eq_none] at pending
      simp [OutboxRow.isPublished, pending.1] at hp
  | @published p now rec cover rest n worker =>
    obtain ⟨q, hq, rfl⟩ := List.mem_map.mp hr
    by_cases hid : q.record.id = rec.id
    · cases hq' : q.isPublished with
      | true => exact .inl ⟨q, hq, by simp [hid, markPublished_record], hq'⟩
      | false =>
        refine .inr ⟨p, now, rec, cover, rest, n, rfl, worker, by simp [hid, markPublished_record], ?_⟩
        exact List.any_eq_true.mpr ⟨q, hq, by simp [hid, hq']⟩
    · exact .inl ⟨q, hq, by simp [hid], by simpa [hid] using hp⟩
  | died id reason =>
    obtain ⟨q, hq, hid, hpub⟩ :=
      exists_of_mem_updateRow (markDead_record _ _) (markDead_isPublished _ _) hr
    exact .inl ⟨q, hq, hid, hpub.trans hp⟩
  | revived =>
    obtain ⟨q, hq, hid, hpub⟩ := exists_of_mem_updateRow revive_record revive_isPublished hr
    exact .inl ⟨q, hq, hid, hpub.trans hp⟩
  | revivedAll =>
    obtain ⟨q, hq, rfl⟩ := List.mem_map.mp hr
    exact .inl ⟨q, hq, by rw [revive_record], by rw [← revive_isPublished, hp]⟩

theorem mem_noteMark {past : Marks} {s' : State} {a : Act} {y : Uuid × List String}
    (h : y ∈ past) : y ∈ noteMark past s a s' := by
  unfold noteMark
  split
  · split
    · split
      · exact List.mem_append_left _ h
      · exact h
    · exact h
  · exact h

/-- A new mark is of a worker whose `publish` answered `Ok`. -/
theorem mem_of_mem_noteMark {past : Marks} {s' : State} {a : Act} {event : Uuid}
    {cover : List String} (h : (event, cover) ∈ noteMark past s a s') :
    (event, cover) ∈ past ∨ ∃ p rec rest n, s.workers p = .answered rec cover .ok rest n ∧
      rec.id = event := by
  unfold noteMark at h
  split at h
  · rename_i p now
    split at h
    · rename_i rec cover' rest n hp
      split at h
      · rcases List.mem_append.mp h with h | h
        · exact .inl h
        · simp only [List.mem_singleton, Prod.mk.injEq] at h
          obtain ⟨rfl, rfl⟩ := h
          exact .inr ⟨p, rec, rest, n, hp, rfl⟩
      · exact .inl h
    · exact .inl h
  · exact .inl h

/-- The tables, the effects, the workers and the marks. -/
structure Delivered (q : State × Marks) : Prop where
  applied : Applied q.1
  /-- The consumers of a call that marked its row have applied the event. -/
  marked : ∀ event cover, (event, cover) ∈ q.2 → ∀ c ∈ cover, (c, event) ∈ q.1.effects
  /-- A published row was marked by a call. -/
  published : ∀ r ∈ q.1.rows, r.isPublished = true → ∃ cover, (r.record.id, cover) ∈ q.2

theorem Delivered.step {q : State × Marks} (h : Delivered q) (a : Act) :
    Delivered (Machine.withHistory State.step noteMark q a) := by
  obtain ⟨s, past⟩ := q
  obtain ⟨happlied, hsub⟩ := h.applied.step a
  refine ⟨happlied, fun event cover hmem c hc => ?_, fun r hr hp => ?_⟩
  · change (event, cover) ∈ noteMark past s a (s.step a) at hmem
    rcases mem_of_mem_noteMark hmem with hold | ⟨p, rec, rest, n, hworker, rfl⟩
    · exact hsub _ (h.marked event cover hold c hc)
    · have hknows : (s.workers p).Knows s.effects := h.applied.workers p
      rw [hworker] at hknows
      exact hsub _ (hknows c hc)
  · rcases (s.step_rows a).published_before hr hp with
      ⟨q, hq, hid, hpub⟩ | ⟨p, now, rec, cover, rest, n, rfl, hworker, hid, hany⟩
    · obtain ⟨cover, hmem⟩ := h.published q hq hpub
      have hkept : (r.record.id, cover) ∈ noteMark past s a (s.step a) := mem_noteMark (hid ▸ hmem)
      exact ⟨cover, hkept⟩
    · refine ⟨cover, ?_⟩
      simp only [Machine.withHistory, noteMark, hworker, hany, if_true, hid]
      exact List.mem_append_right _ (List.mem_singleton_self _)

/-- In every run, no consumer applies an event twice; a row that is published was marked by a publish
call, and whatever consumers a call that marked its row covered have applied the event exactly
once. -/
theorem exactly_once (as : List Act) :
    let q := Machine.run (Machine.withHistory State.step noteMark) (State.init, []) as
    (∀ c event, q.1.effects.count (c, event) ≤ 1) ∧
    (∀ r ∈ q.1.rows, r.isPublished = true → ∃ cover, (r.record.id, cover) ∈ q.2) ∧
    ∀ event cover, (event, cover) ∈ q.2 → ∀ c ∈ cover, q.1.effects.count (c, event) = 1 := by
  have hinit : Delivered (State.init, []) :=
    ⟨⟨rfl, List.nodup_nil, fun _ => trivial⟩, by simp, by simp [State.init]⟩
  have hinv := Machine.invariant_run (Machine.withHistory State.step noteMark) (I := Delivered)
    (fun q a hq => hq.step a) as hinit
  refine ⟨fun c event => ?_, hinv.published, fun event cover hmem c hc => ?_⟩
  · exact List.nodup_iff_count_le_one.mp hinv.applied.once (c, event)
  · exact List.count_eq_one_of_mem hinv.applied.once (hinv.marked event cover hmem c hc)

/-- Two workers hand the event to the ledger; it applies it once, and one mark is written. -/
example :
    let payment : OutboxRecord :=
      { id := 1, eventType := "PaymentSettled", aggregateType := "Payment", aggregateId := "1",
        companyId := 7, payload := .null, occurredAt := 0 }
    let q := Machine.run (Machine.withHistory State.step noteMark) (State.init, [])
      [.stage none payment, .read 0 10, .read 1 10, .offer 0 ["ledger"], .offer 1 ["ledger"],
        .handle 0, .handle 1, .answer 0 .ok, .answer 1 .ok, .mark 1 5, .mark 0 6]
    q.1.effects = [("ledger", 1)] ∧ q.2 = [(1, ["ledger"])] := by
  decide

end Backbone.Outbox
