import Backbone.Outbox.Relay

/-!
# Published or dead

A row is pending, published or dead. The `UPDATE` of a record the transport gave up on asks that the
row is not published; the `UPDATE` of a published one asks the same, and not that the row is alive. Two
workers that read one row and get opposite answers leave it both, counted as dead and published, listed
by `list_dead` and refused by `reemit` (`dead_and_published`). `sound_iff_alive` says exactly which runs
stay clear of that.
-/

namespace Backbone.Outbox

/-- What the counts and the dead letters promise. -/
structure Sound (rows : List OutboxRow) : Prop where
  exclusive : ∀ r ∈ rows, ¬ (r.isPublished = true ∧ r.isDead = true)
  /-- Every row is counted once: as pending, as dead or as published. -/
  counted : ∀ r ∈ rows, r.isPending.toNat + r.isDead.toNat + r.isPublished.toNat = 1
  total : pendingCount rows + deadCount rows + rows.countP (·.isPublished) = rows.length
  /-- What `list_dead` shows, `reemit` revives. -/
  revived : ∀ limit, ∀ r ∈ listDead limit rows, (reemit r.record.id rows).1 = true

/-- The keys of the table. -/
def ids (rows : List OutboxRow) : List Workflow.Uuid := rows.map (·.record.id)

variable {rows : List OutboxRow} {r : OutboxRow}
  {f : OutboxRow → OutboxRow} {rows' : List OutboxRow} {id : Workflow.Uuid} {s : State}
  (now : Workflow.Time)

theorem counted_of_exclusive (h : ¬ (r.isPublished = true ∧ r.isDead = true)) :
    r.isPending.toNat + r.isDead.toNat + r.isPublished.toNat = 1 := by
  unfold OutboxRow.isPublished OutboxRow.isDead OutboxRow.isPending at *
  cases hp : r.publishedAt <;> cases hf : r.failedAt <;> simp_all

theorem total_of_counted (h : ∀ r ∈ rows, r.isPending.toNat + r.isDead.toNat + r.isPublished.toNat = 1) :
    pendingCount rows + deadCount rows + rows.countP (·.isPublished) = rows.length := by
  induction rows with
  | nil => rfl
  | cons r rows ih =>
    have hr := h r List.mem_cons_self
    have hrest := ih fun q hq => h q (List.mem_cons_of_mem _ hq)
    unfold pendingCount deadCount at *
    simp only [List.countP_cons, List.length_cons]
    cases hpend : r.isPending <;> cases hdead : r.isDead <;> cases hpub : r.isPublished <;>
      simp_all <;> omega

theorem mem_of_mem_listDead {limit : ℕ} (h : r ∈ listDead limit rows) :
    r ∈ rows ∧ r.isDead = true := by
  have hsorted := List.mem_of_mem_take h
  rw [orderByTime, List.mem_insertionSort] at hsorted
  exact List.mem_filter.mp hsorted

/-- With unique ids, a dead row that is not published is revived. -/
theorem reemit_of_dead (hids : (ids rows).Nodup) (hr : r ∈ rows) (hdead : r.isDead = true)
    (hpub : r.isPublished = false) : (reemit r.record.id rows).1 = true := by
  have hrev : r.revivable = true := by
    simp only [OutboxRow.revivable, OutboxRow.isDead, OutboxRow.isPublished] at *
    simp [hdead, Option.isSome_eq_false_iff.mp hpub]
  have hcount : rows.countP (fun q => q.record.id == r.record.id && q.revivable) = 1 := by
    have hone := List.count_eq_one_of_mem hids (List.mem_map_of_mem (f := (·.record.id)) hr)
    rw [ids, List.count_eq_countP, List.countP_map] at hone
    rw [← hone]
    refine List.countP_congr fun q hq => ?_
    simp only [Function.comp_apply, Bool.and_eq_true, beq_iff_eq]
    constructor
    · exact fun h => h.1
    · intro h
      exact ⟨h, Table.eq_of_key hids hq hr h ▸ hrev⟩
  simp [reemit, hcount]

/-- With unique ids, everything follows from no row being both. -/
theorem sound_iff_exclusive (hids : (ids rows).Nodup) :
    Sound rows ↔ ∀ r ∈ rows, ¬ (r.isPublished = true ∧ r.isDead = true) := by
  refine ⟨Sound.exclusive, fun h => ⟨h, ?_, ?_, ?_⟩⟩
  · exact fun r hr => counted_of_exclusive (h r hr)
  · exact total_of_counted fun r hr => counted_of_exclusive (h r hr)
  · intro limit r hr
    obtain ⟨hmem, hdead⟩ := mem_of_mem_listDead hr
    refine reemit_of_dead hids hmem hdead ?_
    simpa [hdead] using h r hmem

/-- The record of the example: an event of the aggregate `1`. -/
def settled : OutboxRecord where
  id := 1
  eventType := "PaymentSettled"
  aggregateType := "Payment"
  aggregateId := "1"
  companyId := 7
  payload := .null
  occurredAt := 0

/-- Two workers read the row; the transport gives up on it for the first and takes it for the
second. -/
def oppositeAnswers : List Act :=
  [.stage none settled, .read 0 10, .read 1 10, .offer 0 [], .offer 1 [],
    .answer 0 (.exhausted "no route"), .answer 1 .ok, .mark 0 1, .mark 1 2]

theorem dead_and_published : ¬ Sound (Machine.run State.step State.init oppositeAnswers).rows := by
  intro h
  have hboth : ((Machine.run State.step State.init oppositeAnswers).rows.any fun r =>
      r.isPublished && r.isDead) = true := by decide
  obtain ⟨r, hr, hrow⟩ := List.any_eq_true.mp hboth
  exact h.exclusive r hr (by simpa using hrow)

/-! ## Exactly when -/

/-- A worker that marks its row published finds it alive. -/
def marksAlive (s : State) : Act → Bool
  | .mark p _ =>
    match s.workers p with
    | .answered rec _ .ok _ _ => s.rows.all fun r => r.record.id != rec.id || !r.isDead
    | _ => true
  | _ => true

theorem ids_updateRow
    (hf : ∀ q, (f q).record = q.record) : ids (updateRow id f rows) = ids rows := by
  simp only [ids, updateRow, List.map_map]
  refine List.map_congr_left fun q _ => ?_
  simp only [Function.comp_apply]
  split
  · rw [hf]
  · rfl

/-- The ids stay unique. -/
theorem RowsStep.ids {a : Act} (h : RowsStep s a rows')
    (hids : (ids s.rows).Nodup) : (Outbox.ids rows').Nodup := by
  cases h with
  | same => exact hids
  | staged row id fresh pending =>
    exact Table.nodup_map_append hids fun q hq => by rw [id]; exact fresh q hq
  | published rec cover rest n worker =>
    rw [ids_updateRow (markPublished_record _)]; exact hids
  | died id reason => rw [ids_updateRow (markDead_record _ _)]; exact hids
  | revived => rw [ids_updateRow revive_record]; exact hids
  | revivedAll =>
    have hsame : Outbox.ids (s.rows.map .revive) = Outbox.ids s.rows := by
      simp only [Outbox.ids, List.map_map]
      exact List.map_congr_left fun q _ => congrArg OutboxRecord.id (revive_record q)
    rw [hsame]
    exact hids

/-- No row is both. -/
def Exclusive (rows : List OutboxRow) : Prop :=
  ∀ r ∈ rows, ¬ (r.isPublished = true ∧ r.isDead = true)

theorem Exclusive.updateRow (h : Exclusive rows)
    (hf : ∀ q ∈ rows, q.record.id = id → ¬ ((f q).isPublished = true ∧ (f q).isDead = true)) :
    Exclusive (updateRow id f rows) := by
  intro q hq
  obtain ⟨q₀, hq₀, rfl⟩ := List.mem_map.mp hq
  split
  · rename_i hid
    exact hf q₀ hq₀ (by simpa using hid)
  · exact h q₀ hq₀

theorem not_both_markDead (reason : String)
    (h : ¬ (r.isPublished = true ∧ r.isDead = true)) :
    ¬ ((r.markDead now reason).isPublished = true ∧ (r.markDead now reason).isDead = true) := by
  unfold OutboxRow.markDead
  split
  · rename_i hp
    simp [OutboxRow.isPublished, Option.isNone_iff_eq_none.mp hp]
  · exact h

theorem not_both_revive (h : ¬ (r.isPublished = true ∧ r.isDead = true)) :
    ¬ (r.revive.isPublished = true ∧ r.revive.isDead = true) := by
  unfold OutboxRow.revive
  split
  · simp [OutboxRow.isDead]
  · exact h

/-- A living row may be marked published; a dead one may not. -/
theorem both_markPublished (h : ¬ (r.isPublished = true ∧ r.isDead = true)) :
    ((r.markPublished now).isPublished = true ∧ (r.markPublished now).isDead = true) ↔
      r.isDead = true := by
  unfold OutboxRow.markPublished
  split
  · simp [OutboxRow.isPublished, OutboxRow.isDead]
  · rename_i hp
    have hpub : r.isPublished = true := by
      simpa [OutboxRow.isPublished, Option.isSome_iff_ne_none] using hp
    simp_all

/-- A step that marks no dead row published leaves no row both. -/
theorem RowsStep.exclusive {a : Act} (h : RowsStep s a rows')
    (hex : Exclusive s.rows) (halive : marksAlive s a = true) : Exclusive rows' := by
  cases h with
  | same => exact hex
  | staged row id fresh pending =>
    intro q hq
    rcases List.mem_append.mp hq with hq | hq
    · exact hex q hq
    · rw [List.mem_singleton.mp hq]
      simp only [OutboxRow.isPending, Bool.and_eq_true, Option.isNone_iff_eq_none] at pending
      simp [OutboxRow.isPublished, pending.1]
  | published rec cover rest n worker =>
    refine hex.updateRow fun q hq hid hboth => ?_
    simp only [marksAlive, worker, List.all_eq_true, Bool.or_eq_true, bne_iff_ne, Bool.not_eq_true']
      at halive
    rcases halive q hq with hne | hdead
    · exact hne hid
    · rw [both_markPublished _ (hex q hq), hdead] at hboth
      cases hboth
  | died id reason => exact hex.updateRow fun q hq _ => not_both_markDead _ _ (hex q hq)
  | revived => exact hex.updateRow fun q hq _ => not_both_revive (hex q hq)
  | revivedAll =>
    intro q hq
    obtain ⟨q₀, hq₀, rfl⟩ := List.mem_map.mp hq
    exact not_both_revive (hex q₀ hq₀)

/-- Where no row is both, a step leaves it so exactly when it marks no dead row published. -/
theorem exclusive_step_iff (h : Exclusive s.rows) (a : Act) :
    Exclusive (s.step a).rows ↔ marksAlive s a = true := by
  refine ⟨fun hstep => ?_, fun halive => (s.step_rows a).exclusive h halive⟩
  cases a with
  | mark p now =>
    simp only [State.step] at hstep
    simp only [marksAlive]
    cases hp : s.workers p with
    | answered rec cover verdict rest n =>
      cases verdict with
      | ok =>
        simp only [hp, State.setWorker_rows, markRows] at hstep
        simp only [List.all_eq_true, Bool.or_eq_true, bne_iff_ne, Bool.not_eq_true']
        intro q hq
        by_cases hid : q.record.id = rec.id
        · right
          have hin : q.markPublished now ∈ updateRow rec.id (.markPublished now) s.rows := by
            refine List.mem_map.mpr ⟨q, hq, ?_⟩
            simp [hid]
          have hnot := hstep _ hin
          rw [both_markPublished _ (h q hq)] at hnot
          simpa using hnot
        · exact .inl hid
      | _ => rfl
    | _ => rfl
  | _ => rfl

/-- A run keeps what the counts and the dead letters promise in every state it reaches exactly when no
worker marks as published a row that is dead by then. -/
theorem sound_iff_alive (as : List Act) :
    Machine.Along State.step (fun s a => Sound (s.step a).rows) State.init as ↔
      Machine.Along State.step (fun s a => marksAlive s a = true) State.init as := by
  refine Machine.along_iff_of_invariant State.step
    (I := fun s => (ids s.rows).Nodup ∧ Exclusive s.rows) ?_ ?_
    ⟨List.nodup_nil, by simp [Exclusive, State.init]⟩
  · rintro s a ⟨hids, hex⟩ halive
    exact ⟨(s.step_rows a).ids hids, (s.step_rows a).exclusive hex halive⟩
  · rintro s a ⟨hids, hex⟩
    rw [sound_iff_exclusive ((s.step_rows a).ids hids)]
    exact exclusive_step_iff hex a

end Backbone.Outbox
