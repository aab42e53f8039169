import Backbone.Lib.Table
import Backbone.Workflow.World

/-!
# Events, delivered any number of times

Reference: `backbone-core/src/workflow/engine.rs` (`handle_event`, `start`, `resume`, `leave_wait`),
`backbone-core/src/workflow/schema.rs`, `backbone-outbox/src/inbox.rs`.

The database of all the instances of a service, and the transactions on it. A delivery of a record to
`on_event` is a sequence of them: a `start` for each workflow the record triggers, a `resume` for each
that waits for it, and the transactions of the drivers. Deliveries repeat, overlap and break off
between any two transactions, so a run is any list of transactions, those of the processes that work
on an instance included, in whatever place they are.
-/

namespace Backbone.Workflow

/-- How row level security fences the workflow tables (`migration_sql`, `org_fence_sql`). -/
inductive Fence where
  | company
  | orgUnit
deriving DecidableEq, Repr

/-- Whether the fence shows a row to the transaction of a record's tenant. The company is bound in
both scopes of `scoped`, the units only when the record names one. -/
def Fence.shows (fence : Fence) (record : OutboxRecord) (row : InstanceRow) : Bool :=
  match fence with
  | .company => row.companyId == record.companyId
  | .orgUnit => row.orgUnitId.isSome && row.orgUnitId == record.orgUnitId

/-- A deployment: its workflow definitions and what its engine shares between them. -/
structure Service where
  cfg : EngineConfig := {}
  floatText : UInt64 → String
  fence : Fence := .company
  defs : List WorkflowSpec

/-- The engine, at one definition. -/
def Service.engine (S : Service) (spec : WorkflowSpec) : Engine := ⟨S.cfg, spec, S.floatText⟩

/-- `def_named`. -/
def Service.defNamed (S : Service) (name : String) : Option WorkflowSpec :=
  S.defs.find? (·.name == name)

/-- The workflow tables, and the `inbox_consumed` table. -/
structure Db where
  instances : List Instance
  inbox : List (String × Uuid)

def Db.init : Db := ⟨[], []⟩

/-- The row with the primary key `id`. -/
def Db.find (db : Db) (id : Uuid) : Option Instance := db.instances.find? (·.row.id == id)

/-- The columns of `uq_bb_workflow_instances_trigger`. -/
def Instance.trigger (w : Instance) : String × Uuid := (w.row.workflow, w.row.triggerEventId)

/-- One transaction. -/
inductive Tx where
  /-- `start` of the definition `i`, under a new `id`. -/
  | start (i : ℕ) (env : Env) (envs : ℕ → Env) (record : OutboxRecord) (id : Uuid)
  /-- `resume` of the definition `i`; each instance in surroundings of its own. -/
  | resume (i : ℕ) (envs : Uuid → Env) (record : OutboxRecord)
  /-- The next transaction of a process that works on the instance `id`. -/
  | proc (id : Uuid) (x : Proc) (env : Env)
  | cancel (id : Uuid) (env : Env)

/-- `start`: `ON CONFLICT (workflow, trigger_event_id) DO NOTHING`. -/
def Db.start (S : Service) (db : Db) (spec : WorkflowSpec) (env : Env) (envs : ℕ → Env)
    (record : OutboxRecord) (id : Uuid) : Db :=
  if spec.triggerEvent != record.eventType then db
  else
    match Workflow.start (S.engine spec) env envs record id with
    | .error _ => db
    | .ok w =>
      if db.instances.any (·.trigger == w.trigger) then db
      -- The primary key, and the fence's `WITH CHECK`.
      else if db.instances.any (·.row.id == w.row.id) || !S.fence.shows record w.row then db
      else { db with instances := db.instances ++ [w] }

/-- The consumer `resume` claims an event for. -/
def consumer (workflow : String) : String := "workflow:" ++ workflow

/-- What `resume` does to one row of the table. -/
def resumeRow (S : Service) (spec : WorkflowSpec) (envs : Uuid → Env) (record : OutboxRecord)
    (w : Instance) : Except StepFailure Instance :=
  if w.row.workflow == spec.name && S.fence.shows record w.row &&
      resumeSelects (S.engine spec) record w.row then do
    let left ← resumeOne (S.engine spec) (envs w.row.id) record w
    pure (left.getD w)
  else pure w

/-- `resume`: claim the event, then take every instance that waits for it out of its wait. The rows
are independent, so their order only orders the report. -/
def Db.resume (S : Service) (db : Db) (spec : WorkflowSpec) (envs : Uuid → Env)
    (record : OutboxRecord) : Db :=
  let waits := spec.steps.any fun s =>
    match s.kind with
    | .wait (some event) _ _ _ _ => event == record.eventType
    | _ => false
  if !waits || db.inbox.contains (consumer spec.name, record.id) then db
  else
    match db.instances.mapM (resumeRow S spec envs record) with
    | .error _ => db
    | .ok instances => ⟨instances, db.inbox ++ [(consumer spec.name, record.id)]⟩

/-- A transaction on the instance `id`. -/
def Db.update (db : Db) (id : Uuid) (f : Instance → Instance) : Db :=
  { db with instances := db.instances.map fun w => if w.row.id == id then f w else w }

/-- The next transaction of a process, under the definition its instance names. -/
def Service.txn (S : Service) (x : Proc) (env : Env) (w : Instance) : Instance :=
  match S.defNamed w.row.workflow with
  | some spec => (x.txn (S.engine spec) env w).2
  | none => w

def Db.step (S : Service) (db : Db) : Tx → Db
  | .start i env envs record id =>
    match S.defs[i]? with
    | some spec => db.start S spec env envs record id
    | none => db
  | .resume i envs record =>
    match S.defs[i]? with
    | some spec => db.resume S spec envs record
    | none => db
  | .proc id x env => db.update id (S.txn x env)
  | .cancel id env => db.update id fun w => (cancel env w).2

/-! ## What leaves a wait -/

/-- The rows of an instance that say an event took it out of a wait. -/
def resumedRows (w : Instance) : ℕ := w.log.countP (·.outcome == .resumed)

/-- The instances that leave a wait on an event from `db` to `db'`. -/
def resumedIn (db db' : Db) : List Uuid :=
  (db'.instances.filter fun w =>
    decide (((db.find w.row.id).map resumedRows).getD 0 < resumedRows w)).map (·.row.id)

/-- The events that took an instance out of a wait, kept beside the run. -/
abbrev Resumptions := List (Uuid × Uuid)

def noteResumed (past : Resumptions) (db : Db) (a : Tx) (db' : Db) : Resumptions :=
  match a with
  | .resume _ _ record => past ++ (resumedIn db db').map fun id => (record.id, id)
  | _ => past

/-- The record is the event the instance's wait, on the step `s` it sits on, waits for. -/
structure Awaited (S : Service) (spec : WorkflowSpec) (record : OutboxRecord) (w : Instance) :
    Prop where
  waiting : w.row.status = .waiting
  waitEvent : w.row.waitEvent = some record.eventType
  waitKey : ∃ s event key timeout onEvent onTimeout, On spec w s ∧
    s.kind = .wait event key timeout onEvent onTimeout ∧
    w.row.waitKey = some (eventKey (S.engine spec) key record)
  company : S.fence = .company → w.row.companyId = record.companyId

/-- An instance leaves a wait on an event only by the `resume` of a record it waits for. -/
def ResumedRightly (S : Service) (db : Db) (a : Tx) : Prop :=
  ∀ id ∈ resumedIn db (db.step S a), ∃ i envs record spec w, a = .resume i envs record ∧
    S.defs[i]? = some spec ∧ db.find id = some w ∧ w.row.workflow = spec.name ∧
    Awaited S spec record w

section

variable {S : Service} {spec : WorkflowSpec} {r : Report} {w w' : Instance} {db : Db}
  {R : Instance → Instance → Prop} {db' : Db}
  {record : OutboxRecord} {env : Env} {id : Uuid} {past : Resumptions}

/-- The columns no transaction writes after the insert. -/
structure SameRow (w w' : Instance) : Prop where
  id : w'.row.id = w.row.id
  workflow : w'.row.workflow = w.row.workflow
  triggerEventId : w'.row.triggerEventId = w.row.triggerEventId

theorem SameRow.refl (w : Instance) : SameRow w w := ⟨rfl, rfl, rfl⟩

theorem SameRow.trigger (h : SameRow w w') : w'.trigger = w.trigger := by
  simp [Instance.trigger, h.workflow, h.triggerEventId]

theorem Move.sameRow (m : Move spec w r w') : SameRow w w' := by
  cases m <;> exact ⟨rfl, rfl, rfl⟩

/-- Only a resumption is logged as one. -/
theorem Move.resumedRows_eq (m : Move spec w r w') (hr : r ≠ .event) :
    resumedRows w' = resumedRows w := by
  have append : ∀ row : StepRow, w'.log = w.log ++ [row] → row.outcome ≠ .resumed →
      resumedRows w' = resumedRows w := by
    intro row hlog hne
    simp [resumedRows, hlog, List.countP_append, hne]
  cases m with
  | resume => exact absurd rfl hr
  | take => rfl
  | touch => rfl
  | close => rfl
  | _ => exact append _ rfl nofun

/-! ## What a transaction does to the tables -/

/-- A row that keeps its place, its identity and its resumptions. -/
structure KeepsRow (w w' : Instance) : Prop extends SameRow w w' where
  resumed : resumedRows w' = resumedRows w

theorem KeepsRow.refl (w : Instance) : KeepsRow w w := ⟨.refl w, rfl⟩

/-- What one transaction does: insert an instance under a fresh trigger, update rows without resuming
any, or claim an event and resume instances that wait for it. -/
inductive Stepped (S : Service) (db : Db) (a : Tx) (db' : Db) : Prop where
  | inserted (w : Instance) (instances : db'.instances = db.instances ++ [w])
      (inbox : db'.inbox = db.inbox) (trigger : ∀ v ∈ db.instances, v.trigger ≠ w.trigger)
      (id : ∀ v ∈ db.instances, v.row.id ≠ w.row.id) (resumed : resumedRows w = 0)
      (silent : ∀ past, noteResumed past db a db' = past)
  | updated (rows : List.Forall₂ KeepsRow db.instances db'.instances) (inbox : db'.inbox = db.inbox)
  | claimed (i : ℕ) (envs : Uuid → Env) (record : OutboxRecord) (spec : WorkflowSpec)
      (act : a = .resume i envs record) (found : S.defs[i]? = some spec)
      (fresh : (consumer spec.name, record.id) ∉ db.inbox)
      (inbox : db'.inbox = db.inbox ++ [(consumer spec.name, record.id)])
      (rows : List.Forall₂ (fun w w' => SameRow w w' ∧
        (w' = w ∨ w.row.workflow = spec.name ∧ Awaited S spec record w)) db.instances db'.instances)

/-- A row that `resume` changes is of the workflow, and waits for the record. -/
theorem resumeRow_ok {envs : Uuid → Env}
    (h : resumeRow S spec envs record w = .ok w') : SameRow w w' ∧
      (w' = w ∨ w.row.workflow = spec.name ∧ Awaited S spec record w) := by
  unfold resumeRow at h
  split at h
  · rename_i hsel
    simp only [Bool.and_eq_true, beq_iff_eq] at hsel
    obtain ⟨⟨hname, hshows⟩, hsel⟩ := hsel
    simp only [bind_eq_ok, pure_eq_ok] at h
    obtain ⟨left, hleft, rfl⟩ := h
    cases left with
    | none => exact ⟨.refl w, .inl rfl⟩
    | some w₁ =>
      simp only [resumeSelects, Bool.and_eq_true, beq_iff_eq] at hsel
      obtain ⟨⟨waiting, hevent⟩, -⟩ := hsel
      obtain ⟨m, s, event, key, timeout, onEvent, onTimeout, on, kind, hkey, -⟩ :=
        resumeOne_ok waiting hleft
      refine ⟨m.sameRow, .inr ⟨hname, waiting, hevent,
        ⟨s, event, key, timeout, onEvent, onTimeout, on, kind, hkey⟩, fun hfence => ?_⟩⟩
      simpa [Fence.shows, hfence] using hshows
  · rw [pure_eq_ok] at h
    exact ⟨h ▸ .refl w, .inl h.symm⟩

/-- A started instance has never left a wait. -/
theorem start_resumedRows {e : Engine} {envs : ℕ → Env}
    (h : start e env envs record id = .ok w) : resumedRows w = 0 := by
  refine start_invariant (J := fun w => resumedRows w = 0) ?_ ?_ ?_ h
  · intro w hfresh
    simp [resumedRows, hfresh.log]
  · intro w w' _ hJ m
    rw [m.resumedRows_eq nofun, hJ]
  · intro w f message next context now _ hJ
    simpa [resumedRows, Instance.advance, Instance.logStep, List.countP_append] using hJ

theorem Stepped.same (db : Db) (a : Tx) : Stepped S db a db :=
  .updated (List.forall₂_same.mpr fun w _ => .refl w) rfl

theorem Stepped.start (i : ℕ) (env : Env) (envs : ℕ → Env) (record : OutboxRecord) (id : Uuid) :
    Stepped S db (.start i env envs record id) (db.start S spec env envs record id) := by
  unfold Db.start
  split
  · exact .same db _
  · cases hstart : Workflow.start (S.engine spec) env envs record id with
    | error f => exact .same db _
    | ok w =>
      simp only
      split
      · exact .same db _
      · rename_i htrigger
        split
        · exact .same db _
        · rename_i hid
          simp only [Bool.or_eq_true, not_or] at hid
          refine .inserted w rfl rfl ?_ ?_ (start_resumedRows hstart) fun _ => rfl
          · simpa using htrigger
          · simpa using hid.1

theorem Stepped.resume {i : ℕ} (envs : Uuid → Env) (record : OutboxRecord)
    (found : S.defs[i]? = some spec) :
    Stepped S db (.resume i envs record) (db.resume S spec envs record) := by
  unfold Db.resume
  simp only
  split
  · exact .same db _
  · rename_i hguard
    simp only [Bool.or_eq_true, not_or, List.contains_iff_mem] at hguard
    cases hrows : db.instances.mapM (resumeRow S spec envs record) with
    | error f => exact .same db _
    | ok instances =>
      exact .claimed i envs record spec rfl found hguard.2 rfl
        ((mapM_eq_ok.mp hrows).imp fun _ _ h => resumeRow_ok h)

/-- An update in place, row by row. -/
theorem Stepped.update {a : Tx} {f : Instance → Instance} (h : ∀ w, KeepsRow w (f w)) :
    Stepped S db a (db.update id f) := by
  refine .updated ?_ rfl
  simp only [Db.update]
  rw [List.forall₂_map_right_iff, List.forall₂_same]
  intro w _
  split
  · exact h w
  · exact .refl w

theorem Move.keepsRow (m : Move spec w r w') (hr : r ≠ .event) : KeepsRow w w' :=
  ⟨m.sameRow, m.resumedRows_eq hr⟩

theorem cancel_keepsRow : KeepsRow w (cancel env w).2 := by
  unfold cancel
  split
  · exact .refl w
  · refine ⟨⟨rfl, rfl, rfl⟩, ?_⟩
    simp [resumedRows, Instance.markCancelled, Instance.logStep, List.countP_append]

/-- Every transaction is one of the three. -/
theorem Db.step_stepped (db : Db) (a : Tx) : Stepped S db a (db.step S a) := by
  cases a with
  | start i env envs record id =>
    simp only [Db.step]
    split
    · exact .start i env envs record id
    · exact .same db _
  | resume i envs record =>
    simp only [Db.step]
    split
    · rename_i found
      exact .resume envs record found
    · exact .same db _
  | proc id x env =>
    refine .update fun w => ?_
    unfold Service.txn
    split
    · rename_i spec _
      have hmove : (x.txn (S.engine spec) env w).2 = w ∨
          Move (S.engine spec).spec w (x.reported (S.engine spec)) (x.txn (S.engine spec) env w).2 :=
        Proc.txn_move x
      rcases hmove with hsame | m
      · rw [hsame]; exact .refl w
      · exact m.keepsRow (by cases x <;> nofun)
    · exact .refl w
  | cancel id env =>
    exact .update fun w => cancel_keepsRow

/-! ## Whole runs -/

/-- The tables and the resumptions so far. -/
structure EventInv (q : Db × Resumptions) : Prop where
  triggers : (q.1.instances.map Instance.trigger).Nodup
  ids : (q.1.instances.map (·.row.id)).Nodup
  once : q.2.Nodup
  /-- An event that took an instance out of a wait is claimed for the instance's workflow. -/
  claimed : ∀ event id, (event, id) ∈ q.2 →
    ∃ w ∈ q.1.instances, w.row.id = id ∧ (consumer w.row.workflow, event) ∈ q.1.inbox

theorem Db.find_of_mem (h : (db.instances.map (·.row.id)).Nodup) (hw : w ∈ db.instances) :
    db.find w.row.id = some w :=
  Table.find?_eq_some_of_mem h hw

section

variable (ids : (db.instances.map (·.row.id)).Nodup)
include ids

/-- A row that kept its resumptions is not among the resumed. -/
theorem mem_resumedIn {id : Uuid}
    (rows : List.Forall₂ R db.instances db'.instances) (hR : ∀ {w w'}, R w w' → SameRow w w')
    (h : id ∈ resumedIn db db') :
    ∃ w w', w ∈ db.instances ∧ R w w' ∧ w.row.id = id ∧ db.find id = some w ∧
      resumedRows w < resumedRows w' := by
  simp only [resumedIn, List.mem_map, List.mem_filter, decide_eq_true_eq] at h
  obtain ⟨w', ⟨hw', hlt⟩, rfl⟩ := h
  obtain ⟨w, hw, hr⟩ := Table.exists_of_mem_right rows hw'
  have hid : w.row.id = w'.row.id := (hR hr).id.symm
  have hfind : db.find w'.row.id = some w := hid ▸ Db.find_of_mem ids hw
  rw [hfind] at hlt
  exact ⟨w, w', hw, hr, hid, hfind, hlt⟩

theorem resumedIn_of_keeps
    (rows : List.Forall₂ KeepsRow db.instances db'.instances) : resumedIn db db' = [] := by
  rw [List.eq_nil_iff_forall_not_mem]
  intro id hid
  obtain ⟨w, w', -, hkeeps, -, -, hlt⟩ := mem_resumedIn ids rows (fun h => h.toSameRow) hid
  exact absurd hkeeps.resumed (by omega)

/-- A new instance is not among the resumed, nor is any other. -/
theorem resumedIn_of_insert
    (instances : db'.instances = db.instances ++ [w]) (hw : resumedRows w = 0) :
    resumedIn db db' = [] := by
  rw [List.eq_nil_iff_forall_not_mem]
  intro id hid
  simp only [resumedIn, instances, List.mem_map, List.mem_filter, decide_eq_true_eq] at hid
  obtain ⟨v, ⟨hv, hlt⟩, -⟩ := hid
  rcases List.mem_append.mp hv with hv | hv
  · rw [Db.find_of_mem ids hv] at hlt
    exact absurd hlt (by simp)
  · rw [List.mem_singleton.mp hv, hw] at hlt
    exact absurd hlt (by simp)

end

theorem noteResumed_of_nil {a : Tx} (h : resumedIn db db' = []) :
    noteResumed past db a db' = past := by
  unfold noteResumed
  split
  · simp [h]
  · rfl

/-- An update in place keeps the unique columns. -/
theorem columns_of_rows (hR : ∀ {w w'}, R w w' → SameRow w w')
    (rows : List.Forall₂ R db.instances db'.instances) :
    db'.instances.map Instance.trigger = db.instances.map Instance.trigger ∧
      db'.instances.map (·.row.id) = db.instances.map (·.row.id) :=
  ⟨Table.map_eq_of_forall₂ _ _ (rows.imp fun _ _ h => (hR h).trigger),
    Table.map_eq_of_forall₂ _ _ (rows.imp fun _ _ h => (hR h).id)⟩

/-- What was claimed stays claimed across an update in place. -/
theorem claimed_of_rows (hR : ∀ {w w'}, R w w' → SameRow w w')
    (rows : List.Forall₂ R db.instances db'.instances) (inbox : ∀ c ∈ db.inbox, c ∈ db'.inbox)
    (h : EventInv (db, past)) (event id : Uuid) (hmem : (event, id) ∈ past) :
    ∃ w ∈ db'.instances, w.row.id = id ∧ (consumer w.row.workflow, event) ∈ db'.inbox := by
  obtain ⟨w, hw, hid, hc⟩ := h.claimed event id hmem
  obtain ⟨w', hw', hr⟩ := Table.exists_of_mem_left rows hw
  refine ⟨w', hw', (hR hr).id.trans hid, inbox _ ?_⟩
  rw [(hR hr).workflow]
  exact hc

theorem EventInv.step {q : Db × Resumptions} (h : EventInv q) (a : Tx) :
    EventInv (Machine.withHistory (Db.step S) noteResumed q a) := by
  obtain ⟨db, past⟩ := q
  simp only [Machine.withHistory]
  cases Db.step_stepped (S := S) db a with
  | inserted w instances inbox trigger id resumed silent =>
    rw [silent]
    refine ⟨?_, ?_, h.once, ?_⟩
    · rw [instances]; exact Table.nodup_map_append h.triggers trigger
    · rw [instances]; exact Table.nodup_map_append h.ids id
    · intro event id hmem
      obtain ⟨v, hv, hid, hc⟩ := h.claimed event id hmem
      exact ⟨v, by rw [instances]; exact List.mem_append_left _ hv, hid, by rw [inbox]; exact hc⟩
  | updated rows inbox =>
    obtain ⟨htrigger, hid⟩ := columns_of_rows (fun h => h.toSameRow) rows
    rw [noteResumed_of_nil (resumedIn_of_keeps h.ids rows)]
    refine ⟨htrigger ▸ h.triggers, hid ▸ h.ids, h.once, ?_⟩
    exact claimed_of_rows (fun h => h.toSameRow) rows (by rw [inbox]; exact fun _ => id) h
  | claimed i envs record spec act found fresh inbox rows =>
    obtain ⟨htrigger, hid⟩ := columns_of_rows And.left rows
    subst act
    simp only [noteResumed]
    -- The instances resumed here are of the workflow the event was not claimed for before.
    have hnew : ∀ id ∈ resumedIn db (db.step S (.resume i envs record)), ∃ w ∈ db.instances,
        w.row.id = id ∧ w.row.workflow = spec.name := by
      intro id hmem
      obtain ⟨w, w', hw, ⟨-, hr⟩, hwid, -, hlt⟩ := mem_resumedIn h.ids rows And.left hmem
      rcases hr with rfl | ⟨hname, -⟩
      · omega
      · exact ⟨w, hw, hwid, hname⟩
    refine ⟨htrigger ▸ h.triggers, hid ▸ h.ids, ?_, ?_⟩
    · rw [List.nodup_append]
      refine ⟨h.once, ?_, ?_⟩
      · refine List.Nodup.map (fun a b hab => (Prod.mk.inj hab).2) ?_
        exact List.Nodup.sublist (List.Sublist.map _ List.filter_sublist) (hid ▸ h.ids)
      · rintro pair hold _ hmem rfl
        obtain ⟨id', hin, rfl⟩ := List.mem_map.mp hmem
        obtain ⟨w, hw, hwid, hname⟩ := hnew id' hin
        obtain ⟨v, hv, hvid, hc⟩ := h.claimed _ _ hold
        obtain rfl : v = w := Table.eq_of_key h.ids hv hw (hvid.trans hwid.symm)
        exact fresh (hname ▸ hc)
    · intro event id hmem
      rcases List.mem_append.mp hmem with hmem | hmem
      · exact claimed_of_rows And.left rows (by rw [inbox]; exact fun _ => List.mem_append_left _) h
          event id hmem
      · obtain ⟨id', hin, hpair⟩ := List.mem_map.mp hmem
        simp only [Prod.mk.injEq] at hpair
        obtain ⟨rfl, rfl⟩ := hpair
        obtain ⟨w, hw, hwid, hname⟩ := hnew id' hin
        obtain ⟨w', hw', hr, -⟩ := Table.exists_of_mem_left rows hw
        refine ⟨w', hw', hr.id.trans hwid, ?_⟩
        rw [inbox, hr.workflow, hname]
        exact List.mem_append_right _ (List.mem_singleton_self _)

/-- From tables with unique ids, what leaves a wait on an event leaves it rightly. -/
theorem ResumedRightly.of_ids (ids : (db.instances.map (·.row.id)).Nodup) (a : Tx) :
    ResumedRightly S db a := by
  intro id hid
  cases Db.step_stepped (S := S) db a with
  | inserted w instances inbox trigger id' resumed silent =>
    rw [resumedIn_of_insert ids instances resumed] at hid
    cases hid
  | updated rows inbox =>
    rw [resumedIn_of_keeps ids rows] at hid
    cases hid
  | claimed i envs record spec act found fresh inbox rows =>
    obtain ⟨w, w', -, ⟨-, hr⟩, -, hfind, hlt⟩ := mem_resumedIn ids rows And.left hid
    rcases hr with rfl | ⟨hname, hawaited⟩
    · omega
    · exact ⟨i, envs, record, spec, w, act, found, hfind, hname, hawaited⟩

end

/-- In every run: one instance at most for a workflow and an event, each event takes each instance
out of a wait at most once, and only a record an instance waits for does. -/
theorem events_once (S : Service) (as : List Tx) :
    ((Machine.run (Db.step S) Db.init as).instances.map Instance.trigger).Nodup ∧
    (Machine.run (Machine.withHistory (Db.step S) noteResumed) (Db.init, []) as).2.Nodup ∧
    Machine.Along (Db.step S) (ResumedRightly S) Db.init as := by
  have hinit : EventInv (Db.init, []) := ⟨List.nodup_nil, List.nodup_nil, List.nodup_nil, nofun⟩
  have hinv := Machine.invariant_run (Machine.withHistory (Db.step S) noteResumed) (I := EventInv)
    (fun q a hq => hq.step a) as hinit
  refine ⟨?_, hinv.once, ?_⟩
  · have htriggers := hinv.triggers
    rwa [Machine.run_withHistory_fst] at htriggers
  · refine (Machine.along_withHistory_iff (Db.step S) noteResumed (Db.init, []) as).mp ?_
    exact Machine.along_of_invariant (Machine.withHistory (Db.step S) noteResumed)
      (I := EventInv) (C := fun _ _ => True) (fun q a hq _ => hq.step a)
      (fun q a hq _ => .of_ids hq.ids a) hinit (Machine.along_of_forall_mem _ fun _ _ => trivial)

/-- The payment of the order, delivered twice, takes it out of its wait once. -/
example :
    let payment : OutboxRecord := { orderPlaced with id := 2, eventType := "PaymentReceived" }
    (Machine.run (Machine.withHistory (Db.step ⟨{}, fun _ => "", .company, [orderSpec]⟩) noteResumed)
      (Db.init, []) [.start 0 .calm (fun _ => .calm) orderPlaced 100,
        .proc 100 (.driving 2) .calm, .proc 100 (.driving 1) .calm,
        .resume 0 (fun _ => .calm) payment, .resume 0 (fun _ => .calm) payment]).2 = [(2, 100)] := by
  decide

end Backbone.Workflow
