import Backbone.Jobs.PgEntries
import Backbone.Lib.Run

/-!
# Reconciliation with pg_cron

When every entry is that of one tracked job, `sync_jobs` gets it wrong in three ways only: a job whose
cron expression is as before keeps its entry, with the old queue, payload and priority, or goes without
when it has none; a job loses its entry to one that is created later; two that are created in one second
share one entry.

Reference: `backbone-jobs/src/pg_cron.rs`.
-/

namespace Backbone.Jobs.PgSync

open Machine Names

variable {π : Type} {E : Texts π} {db : Db} {jobs : List (Job π)} {job : Job π}
  {id : String} {order : List String}

/-! ## The list of `sync_jobs` -/

/-- The job is tracked with its expression and active: `sync_jobs` leaves it as it is. -/
def Kept (db : Db) (job : Job π) : Prop :=
  ∃ row ∈ db.jobs.lookup job.id, row.cronExpression = job.cronExpression ∧ row.active = true

instance (db : Db) (job : Job π) : Decidable (Kept db job) :=
  inferInstanceAs (Decidable (∃ row ∈ db.jobs.lookup job.id, _))

theorem mem_listCronJobs {info : PgCronJobInfo} (h : info ∈ db.listCronJobs) :
    ∃ row ∈ db.jobs.lookup info.id,
      info.cronExpression = row.cronExpression ∧ info.active = row.active := by
  obtain ⟨r, hr, hinfo⟩ := List.mem_flatMap.mp h
  have hlookup : db.jobs.lookup r.1 = some r.2 := AList.mem_lookup_iff.mpr hr
  split at hinfo
  · obtain rfl := List.mem_singleton.mp hinfo
    exact ⟨r.2, hlookup, rfl, rfl⟩
  · obtain ⟨e, -, rfl⟩ := List.mem_map.mp hinfo
    exact ⟨r.2, hlookup, rfl, rfl⟩

theorem exists_mem_listCronJobs {row : Row} (h : db.jobs.lookup id = some row) :
    ∃ info ∈ db.listCronJobs, info.id = id := by
  have hr : (⟨id, row⟩ : (_ : String) × Row) ∈ db.jobs.entries := AList.mem_lookup_iff.mp h
  cases hes : db.cronJobs.filter (·.command == row.command) with
  | nil =>
    refine ⟨⟨id, row.cronExpression, row.active, none⟩, List.mem_flatMap.mpr ⟨_, hr, ?_⟩, rfl⟩
    simp only [hes]
    exact List.mem_cons_self
  | cons e es =>
    refine ⟨⟨id, row.cronExpression, row.active, some e.jobid⟩, List.mem_flatMap.mpr ⟨_, hr, ?_⟩, rfl⟩
    simp only [hes]
    exact List.mem_cons_self

/-- A job that is not tracked is created; one that is not kept is updated. -/
theorem syncJob_eq (E : Texts π) (db : Db) (clock : String → ℤ × ℤ) (job : Job π) :
    (Kept db job ∧ syncJob E db.listCronJobs clock job = []) ∨
      (¬ Kept db job ∧ db.jobs.lookup job.id = none ∧
        syncJob E db.listCronJobs clock job = createCronJob E job (clock job.id)) ∨
      (¬ Kept db job ∧ (∃ row, db.jobs.lookup job.id = some row) ∧
        syncJob E db.listCronJobs clock job = updateCronJob E job (clock job.id)) := by
  unfold syncJob
  cases hfind : db.listCronJobs.find? (·.id == job.id) with
  | none =>
    have hnone : db.jobs.lookup job.id = none := by
      cases hlookup : db.jobs.lookup job.id with
      | none => rfl
      | some row =>
        obtain ⟨info, hinfo, hid⟩ := exists_mem_listCronJobs hlookup
        exact absurd (by simpa using hid) (List.find?_eq_none.mp hfind info hinfo)
    refine .inr (.inl ⟨?_, hnone, rfl⟩)
    rintro ⟨row, hrow, -⟩
    rw [hnone] at hrow
    cases hrow
  | some info =>
    obtain ⟨row, hrow, hcron, hactive⟩ := mem_listCronJobs (List.mem_of_find?_eq_some hfind)
    have hid : info.id = job.id := by simpa using List.find?_some hfind
    rw [hid] at hrow
    dsimp only
    split
    · rename_i hchanged
      refine .inr (.inr ⟨?_, ⟨row, hrow⟩, rfl⟩)
      rintro ⟨row', hrow', hcron', hactive'⟩
      obtain rfl := Option.some.inj (hrow.symm.trans hrow')
      rcases hchanged with hne | hinactive
      · exact hne (hcron.trans hcron')
      · rw [hactive, hactive'] at hinactive
        cases hinactive
    · rename_i hkept
      rw [not_or, not_not, Bool.not_eq_false] at hkept
      exact .inl ⟨⟨row, hrow, hcron.symm.trans hkept.1, hactive.symm.trans hkept.2⟩, rfl⟩

/-- The name the entry of a job is given, and the job. -/
def gift (clock : String → ℤ × ℤ) (job : Job π) : String × String :=
  (job.id, jobName (clock job.id).2)

/-- The jobs have new rows and entries, and the others are as they were, but for the names. -/
structure Renewed (E : Texts π) (clock : String → ℤ × ℤ) (jobs : List (Job π)) (db db' : Db) :
    Prop where
  named : ∀ x n, Named db' x n ↔ (jobs.map (gift clock)).foldl give (Named db) x n
  row : ∀ job ∈ jobs, db'.jobs.lookup job.id =
    some ⟨job.cronExpression, generateCronCommand E job (clock job.id).1, true⟩
  other : ∀ x ∉ jobs.map Job.id, db'.jobs.lookup x = db.jobs.lookup x

theorem renewed_nil (clock : String → ℤ × ℤ) : Renewed E clock [] db db where
  named _ _ := Iff.rfl
  row _ h := by cases h
  other _ _ := rfl

theorem Renewed.cons {clock : String → ℤ × ℤ} {db' db'' : Db} (h : Renewed E clock [job] db db')
    (h' : Renewed E clock jobs db' db'') (hid : job.id ∉ jobs.map Job.id) :
    Renewed E clock (job :: jobs) db db'' where
  named x n := by
    rw [h'.named, List.map_cons, List.foldl_cons]
    exact foldl_give_congr h.named _ x n
  row := by
    rw [List.forall_mem_cons]
    exact ⟨(h'.other _ hid).trans (h.row job List.mem_cons_self), h'.row⟩
  other x hx := by
    rw [List.map_cons, List.mem_cons, not_or] at hx
    rw [h'.other x hx.2]
    exact h.other x (by simpa using hx.1)

theorem renewed_createCronJob (h : Owned E db) (hnone : db.jobs.lookup job.id = none)
    (clock : String → ℤ × ℤ) :
    Throughout E db (createCronJob E job (clock job.id)) ∧
      Renewed E clock [job] db (exec db (createCronJob E job (clock job.id))) := by
  have hfree (n : String) : ¬ Named db job.id n := by
    rintro ⟨row, hrow, -⟩
    rw [hnone] at hrow
    cases hrow
  obtain ⟨hthroughout, hnamed⟩ := h.createCronJob job hfree (clock job.id)
  refine ⟨hthroughout, hnamed, fun j hj => ?_, fun x hx => ?_⟩
  · obtain rfl := List.mem_singleton.mp hj
    rw [jobs_createCronJob]
    simp only [Db.insertRow, AList.lookup_insert, hnone]
  · rw [jobs_createCronJob]
    exact lookup_insertRow_of_ne (by simpa using hx)

theorem renewed_updateCronJob (h : Owned E db) (job : Job π) (clock : String → ℤ × ℤ) :
    Throughout E db (updateCronJob E job (clock job.id)) ∧
      Renewed E clock [job] db (exec db (updateCronJob E job (clock job.id))) := by
  obtain ⟨hthroughout, hnamed⟩ := h.updateCronJob job (clock job.id)
  have hremoved : (exec db (removeCronJob job.id)).jobs.lookup job.id = none := by
    rw [jobs_removeCronJob]
    exact AList.lookup_erase _ _
  obtain ⟨-, hcreated⟩ := renewed_createCronJob (h.removeCronJob job.id).1.exec hremoved clock
  refine ⟨hthroughout, hnamed, ?_, fun x hx => ?_⟩
  · rw [updateCronJob, exec_append]
    exact hcreated.row
  · rw [updateCronJob, exec_append, hcreated.other x hx, jobs_removeCronJob]
    exact AList.lookup_erase_ne (by simpa using hx)

/-! ## The loops of `sync_jobs` -/

/-- The jobs that are created or updated. -/
def changed (db : Db) (jobs : List (Job π)) : List (Job π) := jobs.filter fun job => ¬ Kept db job

theorem map_id_changed_subset (db : Db) (jobs : List (Job π)) :
    (changed db jobs).map Job.id ⊆ jobs.map Job.id :=
  List.map_subset _ (List.filter_subset_self _)

theorem mem_changed : job ∈ changed db jobs ↔ job ∈ jobs ∧ ¬ Kept db job := by
  rw [changed, List.mem_filter, decide_eq_true_eq]

theorem id_notMem_changed (hids : (jobs.map Job.id).Nodup) (hjob : job ∈ jobs) (hkept : Kept db job) :
    job.id ∉ (changed db jobs).map Job.id := by
  intro hmem
  obtain ⟨job', hjob', hid⟩ := List.mem_map.mp hmem
  rw [mem_changed] at hjob'
  obtain rfl := List.inj_on_of_nodup_map hids hjob'.1 hjob hid
  exact hjob'.2 hkept

/-- The first loop. The list was read in `db₀`, whose rows of the jobs to come are still there. -/
theorem Owned.syncLoop {db₀ : Db} (h : Owned E db) (clock : String → ℤ × ℤ)
    (hids : (jobs.map Job.id).Nodup)
    (hrows : ∀ job ∈ jobs, db.jobs.lookup job.id = db₀.jobs.lookup job.id) :
    Throughout E db (jobs.flatMap (syncJob E db₀.listCronJobs clock)) ∧
      Renewed E clock (changed db₀ jobs) db
        (exec db (jobs.flatMap (syncJob E db₀.listCronJobs clock))) := by
  induction jobs generalizing db with
  | nil => exact ⟨throughout_nil h, renewed_nil clock⟩
  | cons job jobs ih =>
    rw [List.map_cons, List.nodup_cons] at hids
    rw [List.forall_mem_cons] at hrows
    rw [List.flatMap_cons, exec_append]
    have hnext {db' : Db} (hthroughout : Throughout E db (syncJob E db₀.listCronJobs clock job))
        (hchanged : ¬ Kept db₀ job) (hdb' : exec db (syncJob E db₀.listCronJobs clock job) = db')
        (hrenewed : Renewed E clock [job] db db') :
        Throughout E db (syncJob E db₀.listCronJobs clock job ++
            jobs.flatMap (syncJob E db₀.listCronJobs clock)) ∧
          Renewed E clock (changed db₀ (job :: jobs)) db
            (exec db' (jobs.flatMap (syncJob E db₀.listCronJobs clock))) := by
      subst hdb'
      obtain ⟨hthroughout', hrenewed'⟩ := ih hthroughout.exec hids.2 fun j hj =>
        (hrenewed.other j.id fun hmem => hids.1 (by
          rw [List.map_singleton, List.mem_singleton] at hmem
          exact hmem ▸ List.mem_map_of_mem hj)).trans (hrows.2 j hj)
      refine ⟨hthroughout.append hthroughout', ?_⟩
      rw [changed, List.filter_cons_of_pos (by simpa using hchanged)]
      exact hrenewed.cons hrenewed' fun hmem => hids.1 (map_id_changed_subset db₀ jobs hmem)
    rcases syncJob_eq E db₀ clock job with
      ⟨hkept, heq⟩ | ⟨hchanged, hnone, heq⟩ | ⟨hchanged, -, heq⟩
    · rw [heq, exec_nil, List.nil_append, changed, List.filter_cons_of_neg (by simpa using hkept)]
      exact ih h hids.2 hrows.2
    · obtain ⟨hthroughout, hrenewed⟩ :=
        renewed_createCronJob h (hrows.1.trans hnone) clock
      rw [← heq] at hthroughout hrenewed
      exact hnext hthroughout hchanged rfl hrenewed
    · obtain ⟨hthroughout, hrenewed⟩ := renewed_updateCronJob h job clock
      rw [← heq] at hthroughout hrenewed
      exact hnext hthroughout hchanged rfl hrenewed

/-- The second loop. -/
theorem Owned.removeLoop (h : Owned E db) (ids : List String) :
    Throughout E db (ids.flatMap Jobs.removeCronJob) ∧
      (∀ x n, Named (exec db (ids.flatMap Jobs.removeCronJob)) x n ↔ x ∉ ids ∧ Named db x n) ∧
      (∀ x ∈ ids, (exec db (ids.flatMap Jobs.removeCronJob)).jobs.lookup x = none) ∧
      ∀ x ∉ ids, (exec db (ids.flatMap Jobs.removeCronJob)).jobs.lookup x = db.jobs.lookup x := by
  induction ids generalizing db with
  | nil => exact ⟨throughout_nil h, by simp [Named], by simp, by simp⟩
  | cons id ids ih =>
    obtain ⟨hthroughout, hnamed⟩ := h.removeCronJob id
    obtain ⟨hthroughout', hnamed', hgone, hother⟩ := ih hthroughout.exec
    rw [List.flatMap_cons, exec_append]
    refine ⟨hthroughout.append hthroughout', fun x n => ?_, fun x hx => ?_, fun x hx => ?_⟩
    · rw [hnamed', hnamed, List.mem_cons, not_or]
      tauto
    · by_cases hmem : x ∈ ids
      · exact hgone x hmem
      · obtain rfl := (List.mem_cons.mp hx).resolve_right hmem
        rw [hother x hmem, jobs_removeCronJob]
        exact AList.lookup_erase _ _
    · rw [List.mem_cons, not_or] at hx
      rw [hother x hx.2, jobs_removeCronJob]
      exact AList.lookup_erase_ne hx.1

/-! ## Reconciled tables -/

/-- The entry is that of the job of the id. -/
def EntryOf (E : Texts π) (id : String) (e : CronEntry) : Prop :=
  ∃ (job : Job π) (now : ℤ), job.id = id ∧ e.command = generateCronCommand E job now

/-- The command is that of the job with the queue, the payload and the priority it has. -/
def Carries (E : Texts π) (command : String) (job : Job π) : Prop :=
  ∃ (job' : Job π) (now : ℤ), job'.id = job.id ∧ job'.queue = job.queue ∧
    job'.payload = job.payload ∧ job'.priority = job.priority ∧
    command = generateCronCommand E job' now

/-- Just the listed jobs are tracked, and have each one entry, with what they are now. -/
structure InSync (E : Texts π) (db : Db) (jobs : List (Job π)) : Prop where
  tracked : ∀ id, id ∈ db.jobs ↔ id ∈ jobs.map Job.id
  nodup : (db.cronJobs.map CronEntry.jobid).Nodup
  entry : ∀ job ∈ jobs, ∃ e ∈ db.cronJobs, e.schedule = job.cronExpression ∧
    Carries E e.command job ∧ ∀ e' ∈ db.cronJobs, EntryOf E job.id e' → e' = e
  removed : ∀ e ∈ db.cronJobs, ∀ id, EntryOf E id e → id ∈ jobs.map Job.id

theorem Owned.row_of_entryOf (h : Owned E db) {e : CronEntry} (he : e ∈ db.cronJobs)
    (hid : EntryOf E id e) :
    ∃ row ∈ db.jobs.lookup id, e.command = row.command ∧ e.schedule = row.cronExpression := by
  obtain ⟨x, row, hrow, hcommand, hschedule⟩ := h.owner e he
  obtain ⟨job, now, rfl, hjob⟩ := hid
  obtain ⟨job', now', rfl, hjob'⟩ := h.command x row hrow
  obtain hx : job.id = job'.id := id_of_command (hjob.symm.trans (hcommand.trans hjob'))
  exact ⟨row, hx ▸ hrow, hcommand, hschedule⟩

theorem Owned.inSync_iff (h : Owned E db) (htracked : ∀ id, id ∈ db.jobs ↔ id ∈ jobs.map Job.id) :
    InSync E db jobs ↔ ∀ job ∈ jobs, ∃ row ∈ db.jobs.lookup job.id,
      row.cronExpression = job.cronExpression ∧ Carries E row.command job ∧
        ∃ n, Named db job.id n := by
  constructor
  · intro hsync job hjob
    obtain ⟨e, he, hschedule, hcarries, -⟩ := hsync.entry job hjob
    obtain ⟨job', now, hid, -, -, -, hcommand⟩ := id hcarries
    obtain ⟨row, hrow, hrowCommand, hrowSchedule⟩ := h.row_of_entryOf he ⟨job', now, hid, hcommand⟩
    exact ⟨row, hrow, hrowSchedule.symm.trans hschedule, hrowCommand ▸ hcarries,
      e.jobname, row, hrow, e, he, hrowCommand, rfl⟩
  · intro hall
    refine ⟨htracked, h.nodup, fun job hjob => ?_, fun e he id hid => ?_⟩
    · obtain ⟨row, hrow, hcron, hcarries, n, hn⟩ := hall job hjob
      obtain ⟨e, he, hcommand, -⟩ := (named_iff hrow).mp hn
      -- Every entry of the job has the command of its row.
      have hrowOf {e' : CronEntry} (he' : e' ∈ db.cronJobs) (hid : EntryOf E job.id e') :
          e'.command = row.command ∧ e'.schedule = row.cronExpression := by
        obtain ⟨row', hrow', hrest⟩ := h.row_of_entryOf he' hid
        obtain rfl := Option.some.inj (hrow.symm.trans hrow')
        exact hrest
      obtain ⟨job', now, hid, -, -, -, hgenerate⟩ := id hcarries
      have hof : EntryOf E job.id e := ⟨job', now, hid, hcommand.trans hgenerate⟩
      refine ⟨e, he, (hrowOf he hof).2.trans hcron, hcommand ▸ hcarries, fun e' he' hid' => ?_⟩
      exact h.commands e' he' e he ((hrowOf he' hid').1.trans hcommand.symm)
    · obtain ⟨row, hrow, -⟩ := h.row_of_entryOf he hid
      exact (htracked id).mp (AList.lookup_isSome.mp (Option.isSome_iff_exists.mpr ⟨row, hrow⟩))

/-- The names of the entries that a reconciliation creates. -/
def newNames (db : Db) (jobs : List (Job π)) (clock : String → ℤ × ℤ) : List String :=
  (changed db jobs).map fun job => jobName (clock job.id).2

/-- What `sync_jobs` comes to. -/
theorem Owned.syncJobs (h : Owned E db) (hids : (jobs.map Job.id).Nodup) (clock : String → ℤ × ℤ)
    (horder : order.Perm db.jobs.keys) :
    Throughout E db (Jobs.syncJobs E db jobs clock order) ∧
      (∀ id, id ∈ (exec db (Jobs.syncJobs E db jobs clock order)).jobs ↔ id ∈ jobs.map Job.id) ∧
      ∃ db', Renewed E clock (changed db jobs) db db' ∧ ∀ id ∈ jobs.map Job.id,
        (exec db (Jobs.syncJobs E db jobs clock order)).jobs.lookup id = db'.jobs.lookup id ∧
        ∀ n, Named (exec db (Jobs.syncJobs E db jobs clock order)) id n ↔ Named db' id n := by
  obtain ⟨hthroughout, hrenewed⟩ := h.syncLoop clock hids fun _ _ => rfl
  obtain ⟨hthroughout', hnamed, hgone, hother⟩ := hthroughout.exec.removeLoop
    (order.filter fun id => id ∉ jobs.map Job.id)
  rw [Jobs.syncJobs, exec_append]
  have hlisted {id : String} (hid : id ∈ jobs.map Job.id) :
      id ∉ order.filter fun id => id ∉ jobs.map Job.id := fun hmem => by
    have := (List.mem_filter.mp hmem).2
    simp [hid] at this
  refine ⟨hthroughout.append hthroughout', fun id => ?_, _, hrenewed, fun id hid =>
    ⟨hother id (hlisted hid), fun n => (hnamed id n).trans (and_iff_right (hlisted hid))⟩⟩
  rw [← AList.lookup_isSome]
  by_cases hid : id ∈ jobs.map Job.id
  · refine iff_of_true ?_ hid
    rw [hother id (hlisted hid)]
    obtain ⟨job, hjob, rfl⟩ := List.mem_map.mp hid
    by_cases hkept : Kept db job
    · rw [hrenewed.other job.id (id_notMem_changed hids hjob hkept)]
      obtain ⟨row, hrow, -⟩ := hkept
      exact Option.isSome_iff_exists.mpr ⟨row, hrow⟩
    · rw [hrenewed.row job (mem_changed.mpr ⟨hjob, hkept⟩)]
      rfl
  · refine iff_of_false ?_ hid
    by_cases hmem : id ∈ order
    · rw [hgone id (List.mem_filter.mpr ⟨hmem, by simpa using hid⟩)]
      exact Bool.false_ne_true
    · rw [hother id fun hfilter => hmem (List.mem_filter.mp hfilter).1,
        hrenewed.other id fun hchanged => hid (map_id_changed_subset db jobs hchanged),
        AList.lookup_isSome]
      exact fun hkeys => hmem (horder.mem_iff.mpr hkeys)

/-- A reconciliation succeeds when every job it keeps has its entry, with what the job is now and a name
that none of the new ones has, and no two of these are the same. -/
theorem Owned.inSync_syncJobs_iff (h : Owned E db) (hids : (jobs.map Job.id).Nodup)
    (clock : String → ℤ × ℤ) (horder : order.Perm db.jobs.keys) :
    InSync E (exec db (Jobs.syncJobs E db jobs clock order)) jobs ↔
      (∀ job ∈ jobs, Kept db job → ∃ row ∈ db.jobs.lookup job.id, Carries E row.command job ∧
        ∃ e ∈ db.cronJobs, e.command = row.command ∧ e.jobname ∉ newNames db jobs clock) ∧
      (newNames db jobs clock).Nodup := by
  obtain ⟨hthroughout, htracked, db', hrenewed, hsame⟩ := h.syncJobs hids clock horder
  have hgifts : ((changed db jobs).map (gift clock)).map Prod.fst = (changed db jobs).map Job.id :=
    List.map_map
  have hnames : ((changed db jobs).map (gift clock)).map Prod.snd = newNames db jobs clock :=
    List.map_map
  have hids' : ((changed db jobs).map Job.id).Nodup := hids.sublist (List.filter_sublist.map _)
  rw [hthroughout.exec.inSync_iff htracked, ← hnames,
    ← forall_named_iff (N := Named db) (hgifts ▸ hids'), hgifts]
  constructor
  · intro hall
    refine ⟨fun job hjob hkept => ?_, fun id hid => ?_⟩
    · obtain ⟨row, hrow, -, hcarries, n, hn⟩ := hall job hjob
      have hid := id_notMem_changed hids hjob hkept
      rw [(hsame _ (List.mem_map_of_mem hjob)).1, hrenewed.other _ hid] at hrow
      rw [(hsame _ (List.mem_map_of_mem hjob)).2, hrenewed.named,
        foldl_give_of_notMem (hgifts ▸ hid), named_iff hrow] at hn
      obtain ⟨⟨e, he, hcommand, rfl⟩, hn⟩ := hn
      exact ⟨row, hrow, hcarries, e, he, hcommand, hn⟩
    · obtain ⟨job, hjob, rfl⟩ := List.mem_map.mp hid
      obtain ⟨-, -, -, -, n, hn⟩ := hall job (mem_changed.mp hjob).1
      rw [(hsame _ (map_id_changed_subset db jobs hid)).2, hrenewed.named] at hn
      exact ⟨n, hn⟩
  · rintro ⟨hkeptJobs, hchangedJobs⟩ job hjob
    have hid := List.mem_map_of_mem (f := Job.id) hjob
    rw [(hsame _ hid).1]
    simp only [(hsame _ hid).2, hrenewed.named]
    by_cases hkept : Kept db job
    · obtain ⟨row, hrow, hcarries, e, he, hcommand, hn⟩ := hkeptJobs job hjob hkept
      have hother := id_notMem_changed hids hjob hkept
      refine ⟨row, (hrenewed.other _ hother).trans hrow, ?_, hcarries, e.jobname, ?_⟩
      · obtain ⟨row', hrow', hcron, -⟩ := hkept
        obtain rfl := Option.some.inj (hrow.symm.trans hrow')
        exact hcron
      · rw [foldl_give_of_notMem (hgifts ▸ hother), named_iff hrow]
        exact ⟨⟨e, he, hcommand, rfl⟩, hn⟩
    · have hmem := mem_changed.mpr ⟨hjob, hkept⟩
      refine ⟨_, hrenewed.row job hmem, rfl, ⟨job, _, rfl, rfl, rfl, rfl, rfl⟩, ?_⟩
      exact hchangedJobs job.id (List.mem_map_of_mem hmem)

/-! ## Runs -/

/-- No job is created that has an entry, but in the second the entry is named after, and then all of it
is done; and a list to reconcile with has each job once. -/
def Careful (db : Db) (a : PgAct π) : Prop :=
  match a.call with
  | .createCronJob job =>
    a.succeeded = 0 ∨ ∀ n, Named db job.id n → n = jobName (a.clock job.id).2 ∧ 2 ≤ a.succeeded
  | .syncJobs backboneJobs _ => (backboneJobs.map Job.id).Nodup
  | _ => True

theorem owned_step (h : Owned E db) {a : PgAct π} (ha : Careful db a) : Owned E (db.step E a) := by
  obtain ⟨call, clock, succeeded⟩ := a
  cases call with
  | createCronJob job =>
    rcases ha with rfl | ha
    · exact h
    · by_cases hfree : ∀ n, ¬ Named db job.id n
      · exact (h.createCronJob job hfree (clock job.id)).1 succeeded
      · obtain ⟨n, hn⟩ := not_forall_not.mp hfree
        have hall := h.createCronJob_again job (clock job.id) fun n hn => (ha n hn).1
        show Owned E (exec db (List.take succeeded _))
        rw [List.take_of_length_le (ha n hn).2]
        exact hall
  | updateCronJob job => exact (h.updateCronJob job (clock job.id)).1 succeeded
  | removeCronJob id => exact (h.removeCronJob id).1 succeeded
  | enableCronJob id => exact throughout_single h (h.setActive id true) succeeded
  | disableCronJob id => exact throughout_single h (h.setActive id false) succeeded
  | syncJobs backboneJobs order =>
    show Owned E (exec db (List.take succeeded (if _ then _ else _)))
    split
    · rename_i horder
      exact (h.syncJobs ha clock horder).1 succeeded
    · exact throughout_nil h succeeded

theorem owned_run {as : List (PgAct π)} (has : Along (Db.step E) Careful Db.new as) :
    Owned E (run (Db.step E) Db.new as) :=
  invariant_along (I := Owned E) (Db.step E) (fun _ _ h ha => owned_step h ha) owned_new has

/-- Reconciliation, from any state that earlier calls have produced. -/
theorem in_sync_iff {as : List (PgAct π)} (has : Along (Db.step E) Careful Db.new as)
    {jobs : List (Job π)} (hids : (jobs.map Job.id).Nodup) (clock : String → ℤ × ℤ)
    {order : List String} (horder : order.Perm (run (Db.step E) Db.new as).jobs.keys) :
    let db := run (Db.step E) Db.new as
    InSync E (exec db (syncJobs E db jobs clock order)) jobs ↔
      (∀ job ∈ jobs, Kept db job → ∃ row ∈ db.jobs.lookup job.id, Carries E row.command job ∧
        ∃ e ∈ db.cronJobs, e.command = row.command ∧ e.jobname ∉ newNames db jobs clock) ∧
      (newNames db jobs clock).Nodup :=
  (owned_run has).inSync_syncJobs_iff hids clock horder

/-! ## Two jobs -/

/-- Payloads that are strings, and times of the first seconds there are. -/
def texts : Texts String where
  payload := Workflow.jsonString
  rfc3339 now := "1970-01-01T00:00:0" ++ toString (now / oneSecond) ++ "+00:00"

def daily : Job String := Job.new "daily" "Daily report" "0 0 0 * * *" "reports" "all"

def weekly : Job String := Job.new "weekly" "Weekly report" "0 0 0 * * MON" "reports" "all"

/-- The creation of a job in a second. -/
def created (job : Job String) (second : ℤ) : PgAct String :=
  ⟨.createCronJob job, fun _ => (second * oneSecond, second * oneSecond), 2⟩

theorem careful_created (job : Job String) (second : ℤ) :
    Along (Db.step texts) Careful Db.new [created job second] := by
  refine ⟨.inr fun n hn => ?_, trivial⟩
  obtain ⟨row, hrow, -⟩ := hn
  cases hrow

theorem in_sync_iff_weeklyCreated :
    let db := run (Db.step texts) Db.new [created daily 1]
    InSync texts (exec db (syncJobs texts db [daily, weekly]
      (fun _ => (2 * oneSecond, 2 * oneSecond)) ["daily"])) [daily, weekly] := by
  refine (in_sync_iff (careful_created daily 1) (by decide) _ (by decide +kernel)).mpr
    ⟨fun job hjob hkept => ?_, by decide +kernel⟩
  rcases List.mem_cons.mp hjob with rfl | hjob
  · exact ⟨_, rfl, ⟨daily, oneSecond, rfl, rfl, rfl, rfl, rfl⟩, _, List.mem_cons_self, rfl,
      by decide +kernel⟩
  · obtain rfl := List.mem_singleton.mp hjob
    exact absurd hkept (by decide +kernel)

/-- Two creations in one second share an entry; a job that changes its queue keeps the old one. -/
theorem not_in_sync :
    ¬ InSync texts (exec Db.new (syncJobs texts Db.new [daily, weekly] (fun _ => (0, 0)) []))
      [daily, weekly] ∧
    let db := run (Db.step texts) Db.new [created daily 1]
    ¬ InSync texts (exec db (syncJobs texts db [{ daily with queue := "urgent" }]
      (fun _ => (2 * oneSecond, 2 * oneSecond)) ["daily"])) [{ daily with queue := "urgent" }] := by
  constructor
  · rw [owned_new.inSync_syncJobs_iff (by decide) _ (by decide +kernel)]
    rintro ⟨-, hnodup⟩
    exact absurd hnodup (by decide +kernel)
  · intro db
    rw [(owned_run (careful_created daily 1)).inSync_syncJobs_iff (by decide) _ (by decide +kernel)]
    rintro ⟨hkeptJobs, -⟩
    obtain ⟨row, hrow, ⟨job, now, -, hqueue, -, -, hcommand⟩, -⟩ :=
      hkeptJobs _ List.mem_cons_self (by decide +kernel)
    obtain rfl : row = ⟨"0 0 0 * * *", generateCronCommand texts daily oneSecond, true⟩ :=
      Option.some.inj (hrow.symm.trans rfl)
    have hlist := congrArg String.toList hcommand
    simp only [generateCronCommand, hqueue, String.toList_append, List.append_assoc] at hlist
    have hhead := List.append_cancel_left hlist
    cases hhead

end Backbone.Jobs.PgSync
