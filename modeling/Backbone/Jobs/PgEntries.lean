import Backbone.Jobs.PgCron
import Backbone.Lib.Names
import Backbone.Lib.Table

/-!
# Entries of pg_cron

As long as no job is created that has an entry of an earlier second, every entry of `cron.job` is that of
one tracked job. The names of the entries go as `Names.give` says: a new entry takes its name, and its
place, from the one that was created in the same second.

Reference: `backbone-jobs/src/pg_cron.rs`.
-/

namespace Backbone.Jobs.PgSync

open Names

variable {π : Type} {E : Texts π} {db : Db} {id : String} {row : Row} {ss : List Statement}

/-! ## Entries and their jobs -/

/-- The job has an entry of the name. -/
def Named (db : Db) (id jobname : String) : Prop :=
  ∃ row ∈ db.jobs.lookup id, ∃ e ∈ db.cronJobs, e.command = row.command ∧ e.jobname = jobname

/-- Every entry is that of a tracked job, and tells its own name, id and command. -/
structure Owned (E : Texts π) (db : Db) : Prop where
  command : ∀ id, ∀ row ∈ db.jobs.lookup id,
    ∃ (job : Job π) (now : ℤ), job.id = id ∧ row.command = generateCronCommand E job now
  owner : ∀ e ∈ db.cronJobs, ∃ id, ∃ row ∈ db.jobs.lookup id,
    e.command = row.command ∧ e.schedule = row.cronExpression
  commands : ∀ e ∈ db.cronJobs, ∀ e' ∈ db.cronJobs, e.command = e'.command → e = e'
  names : ∀ e ∈ db.cronJobs, ∀ e' ∈ db.cronJobs, e.jobname = e'.jobname → e = e'
  nodup : (db.cronJobs.map CronEntry.jobid).Nodup
  next : ∀ e ∈ db.cronJobs, e.jobid < db.nextJobid

theorem owned_new : Owned E Db.new where
  command id row hrow := by cases hrow
  owner e he := by cases he
  commands e he := by cases he
  names e he := by cases he
  nodup := List.nodup_nil
  next e he := by cases he

theorem Owned.jobids (h : Owned E db) {e e' : CronEntry} (he : e ∈ db.cronJobs)
    (he' : e' ∈ db.cronJobs) (heq : e.jobid = e'.jobid) : e = e' :=
  List.inj_on_of_nodup_map h.nodup he he' heq

/-- Jobs with the same command are one job. -/
theorem Owned.id_eq (h : Owned E db) {id' : String} {row' : Row}
    (hrow : db.jobs.lookup id = some row) (hrow' : db.jobs.lookup id' = some row')
    (hcommand : row.command = row'.command) : id = id' := by
  obtain ⟨job, now, rfl, hjob⟩ := h.command id row hrow
  obtain ⟨job', now', rfl, hjob'⟩ := h.command id' row' hrow'
  exact id_of_command (hjob.symm.trans (hcommand.trans hjob'))

theorem named_iff {n : String} (hrow : db.jobs.lookup id = some row) :
    Named db id n ↔ ∃ e ∈ db.cronJobs, e.command = row.command ∧ e.jobname = n := by
  constructor
  · rintro ⟨row', hrow', h⟩
    obtain rfl := Option.some.inj (hrow.symm.trans hrow')
    exact h
  · exact fun h => ⟨row, hrow, h⟩

/-! ## What the statements do -/

theorem lookup_insertRow_of_ne {x cronExpression command : String} (hx : x ≠ id) :
    (db.insertRow id cronExpression command).jobs.lookup x = db.jobs.lookup x :=
  AList.lookup_insert_ne hx

theorem lookup_insertRow (db : Db) (id cronExpression command : String) :
    ∃ active, (db.insertRow id cronExpression command).jobs.lookup id =
      some ⟨cronExpression, command, active⟩ := ⟨_, AList.lookup_insert _⟩

theorem jobs_schedule (db : Db) (jobname cron command : String) :
    (db.schedule jobname cron command).jobs = db.jobs := by
  unfold Db.schedule
  split <;> rfl

/-- The entries do not depend on the rows. -/
theorem schedule_insertRow (db : Db) (id jobname cron command : String) :
    (db.insertRow id cron command).schedule jobname cron command =
      { db.schedule jobname cron command with jobs := (db.insertRow id cron command).jobs } := by
  cases hany : db.cronJobs.any (·.jobname == jobname) <;> simp [Db.schedule, Db.insertRow, hany]

theorem Owned.insertRow_command (h : Owned E db) (job : Job π) (cronExpression : String) (now : ℤ)
    (x : String) (row : Row) (hrow : (db.insertRow job.id cronExpression
      (generateCronCommand E job now)).jobs.lookup x = some row) :
    ∃ (job : Job π) (now : ℤ), job.id = x ∧ row.command = generateCronCommand E job now := by
  rcases Table.lookup_insert_cases hrow with ⟨rfl, rfl⟩ | ⟨-, hrow'⟩
  · exact ⟨job, now, rfl, rfl⟩
  · exact h.command x row hrow'

/-- A row for a job without an entry. -/
theorem Owned.insertRow (h : Owned E db) {job : Job π} (hfree : ∀ n, ¬ Named db job.id n)
    (cronExpression : String) (now : ℤ) :
    Owned E (db.insertRow job.id cronExpression (generateCronCommand E job now)) ∧
      ∀ x n, Named (db.insertRow job.id cronExpression (generateCronCommand E job now)) x n ↔
        Named db x n := by
  -- The entries belong to other jobs, whose rows stay.
  have hother {e : CronEntry} (he : e ∈ db.cronJobs) : ∃ x, x ≠ job.id ∧
      ∃ row ∈ db.jobs.lookup x, e.command = row.command ∧ e.schedule = row.cronExpression := by
    obtain ⟨x, row, hrow, hcommand, hschedule⟩ := h.owner e he
    refine ⟨x, ?_, row, hrow, hcommand, hschedule⟩
    rintro rfl
    exact hfree e.jobname ⟨row, hrow, e, he, hcommand, rfl⟩
  have howned : Owned E (db.insertRow job.id cronExpression (generateCronCommand E job now)) := by
    refine ⟨h.insertRow_command job cronExpression now, fun e he => ?_, h.commands, h.names, h.nodup,
      h.next⟩
    obtain ⟨x, hx, row, hrow, hrest⟩ := hother he
    exact ⟨x, row, (lookup_insertRow_of_ne hx).trans hrow, hrest⟩
  refine ⟨howned, fun x n => ?_⟩
  by_cases hx : x = job.id
  · subst hx
    refine iff_of_false ?_ (hfree n)
    rintro ⟨row, hrow, e, he, hcommand, -⟩
    obtain ⟨x, hx, row', hrow', hcommand', -⟩ := hother he
    exact hx (howned.id_eq ((lookup_insertRow_of_ne hx).trans hrow') hrow
      (hcommand'.symm.trans hcommand))
  · simp only [Named, lookup_insertRow_of_ne hx]
    rfl

/-- What tells the entries of before apart, and each of another name from the new one, tells the
entries apart where the new one replaces whoever had its name. -/
theorem eq_of_replaced {β : Type*} {old new : List CronEntry} {jobname : String} {x : CronEntry}
    (f : CronEntry → β) (hmem : ∀ e, e ∈ new ↔ (e ∈ old ∧ e.jobname ≠ jobname) ∨ e = x)
    (hold : ∀ e ∈ old, ∀ e' ∈ old, f e = f e' → e = e')
    (hdiffer : ∀ e ∈ old, e.jobname ≠ jobname → f e ≠ f x) (e : CronEntry) (he : e ∈ new)
    (e' : CronEntry) (he' : e' ∈ new) (heq : f e = f e') : e = e' := by
  rcases (hmem e).mp he with ⟨he, hne⟩ | rfl
  · rcases (hmem e').mp he' with ⟨he', -⟩ | rfl
    · exact hold e he e' he' heq
    · exact absurd heq (hdiffer e he hne)
  · rcases (hmem e').mp he' with ⟨he', hne'⟩ | rfl
    · exact absurd heq.symm (hdiffer e' he' hne')
    · rfl

/-- The entries behind `cron.schedule`. -/
theorem Owned.mem_schedule (h : Owned E db) (jobname cron command : String) :
    ∃ jobid, (∀ e, e ∈ (db.schedule jobname cron command).cronJobs ↔
        (e ∈ db.cronJobs ∧ e.jobname ≠ jobname) ∨ e = ⟨jobid, jobname, cron, command⟩) ∧
      ((db.schedule jobname cron command).cronJobs.map CronEntry.jobid).Nodup ∧
      jobid < (db.schedule jobname cron command).nextJobid ∧
      db.nextJobid ≤ (db.schedule jobname cron command).nextJobid := by
  unfold Db.schedule
  split
  · rename_i hany
    obtain ⟨e₀, he₀, hname⟩ := List.any_eq_true.mp hany
    have hname : e₀.jobname = jobname := by simpa using hname
    refine ⟨e₀.jobid, fun e => ?_, ?_, h.next e₀ he₀, le_refl _⟩
    · dsimp only
      rw [List.mem_map]
      constructor
      · rintro ⟨e₁, he₁, rfl⟩
        split
        · rename_i hname₁
          obtain rfl := h.names e₁ he₁ e₀ he₀ (hname₁.trans hname.symm)
          exact .inr (by rw [hname])
        · rename_i hname₁
          exact .inl ⟨he₁, hname₁⟩
      · rintro (⟨he, hne⟩ | rfl)
        · exact ⟨e, he, if_neg hne⟩
        · exact ⟨e₀, he₀, by rw [if_pos hname, hname]⟩
    · dsimp only
      rw [List.map_map, List.map_congr_left fun e _ => ?_]
      · exact h.nodup
      · rw [Function.comp_apply]
        split <;> rfl
  · rename_i hnone
    have hne {e : CronEntry} (he : e ∈ db.cronJobs) : e.jobname ≠ jobname := by
      intro hname
      exact hnone (List.any_eq_true.mpr ⟨e, he, by simpa using hname⟩)
    refine ⟨db.nextJobid, fun e => ?_, ?_, Nat.lt_succ_self _, Nat.le_succ _⟩
    · dsimp only
      rw [List.mem_append, List.mem_singleton]
      exact or_congr_left ⟨fun he => ⟨he, hne he⟩, fun he => he.1⟩
    · dsimp only
      rw [List.map_append, List.nodup_append]
      refine ⟨h.nodup, List.nodup_singleton _, fun i hi j hj => ?_⟩
      obtain ⟨e, he, rfl⟩ := List.mem_map.mp hi
      obtain rfl := List.mem_singleton.mp hj
      exact Nat.ne_of_lt (h.next e he)

/-- An entry for the row of a job that has none: its name is taken from whoever had it. -/
theorem Owned.schedule (h : Owned E db) (hrow : db.jobs.lookup id = some row)
    (hfree : ∀ n, ¬ Named db id n) (jobname : String) :
    Owned E (db.schedule jobname row.cronExpression row.command) ∧
      ∀ x n, Named (db.schedule jobname row.cronExpression row.command) x n ↔
        give (Named db) (id, jobname) x n := by
  obtain ⟨jobid, hmem, hnodup, hlt, hle⟩ := h.mem_schedule jobname row.cronExpression row.command
  have hjobs := jobs_schedule db jobname row.cronExpression row.command
  -- No entry of before has the command of the new one.
  have hcommand {e : CronEntry} (he : e ∈ db.cronJobs) : e.command ≠ row.command :=
    fun heq => hfree e.jobname ((named_iff hrow).mpr ⟨e, he, heq, rfl⟩)
  refine ⟨⟨?_, fun e he => ?_, fun e he e' he' heq => ?_, fun e he e' he' heq => ?_,
    hnodup, fun e he => ?_⟩, fun x n => ?_⟩
  · rw [hjobs]
    exact h.command
  · rw [hjobs]
    rcases (hmem e).mp he with ⟨he, -⟩ | rfl
    · exact h.owner e he
    · exact ⟨id, row, hrow, rfl, rfl⟩
  · exact eq_of_replaced CronEntry.command hmem h.commands (fun _ he _ => hcommand he) e he e' he'
      heq
  · exact eq_of_replaced CronEntry.jobname hmem h.names (fun _ _ hne => hne) e he e' he' heq
  · rcases (hmem e).mp he with ⟨he, -⟩ | rfl
    · exact lt_of_lt_of_le (h.next e he) hle
    · exact hlt
  · constructor
    · rintro ⟨row', hrow', e, he, heq, hn⟩
      rw [hjobs] at hrow'
      rcases (hmem e).mp he with ⟨he, hne⟩ | rfl
      · refine .inr ⟨?_, ⟨row', hrow', e, he, heq, hn⟩, hn ▸ hne⟩
        rintro rfl
        exact hfree n ⟨row', hrow', e, he, heq, hn⟩
      · exact .inl ⟨h.id_eq hrow' hrow heq.symm, hn.symm⟩
    · rintro (⟨rfl, rfl⟩ | ⟨-, ⟨row', hrow', e, he, heq, hn⟩, hne⟩)
      · exact ⟨row, by rw [hjobs]; exact hrow, _, (hmem _).mpr (.inr rfl), rfl, rfl⟩
      · refine ⟨row', by rw [hjobs]; exact hrow', e, (hmem e).mpr (.inl ⟨he, ?_⟩), heq, hn⟩
        rw [hn]
        exact hne

/-- The removal of the entry of a job. -/
theorem Owned.unscheduleJob (h : Owned E db) (id : String) :
    Owned E (db.unscheduleJob id) ∧
      ∀ x n, Named (db.unscheduleJob id) x n ↔ x ≠ id ∧ Named db x n := by
  have hsame (hnone : ∀ n, ¬ Named db id n) : ∀ x n, Named db x n ↔ x ≠ id ∧ Named db x n := by
    intro x n
    refine ⟨fun hx => ⟨?_, hx⟩, fun hx => hx.2⟩
    rintro rfl
    exact hnone n hx
  unfold Db.unscheduleJob
  split
  · rename_i e₀ hfound
    obtain ⟨row, hrow, hfind⟩ := Option.bind_eq_some_iff.mp hfound
    have he₀ := List.mem_of_find?_eq_some hfind
    have hcommand : e₀.command = row.command := by simpa using List.find?_some hfind
    have hmem {e : CronEntry} : e ∈ (db.unschedule e₀.jobid).cronJobs ↔ e ∈ db.cronJobs ∧ e ≠ e₀ := by
      simp only [Db.unschedule, List.mem_filter, decide_eq_true_eq]
      refine and_congr_right fun he => not_congr ⟨fun hid => h.jobids he he₀ hid, ?_⟩
      rintro rfl
      rfl
    have hold {e : CronEntry} (he : e ∈ (db.unschedule e₀.jobid).cronJobs) : e ∈ db.cronJobs :=
      (hmem.mp he).1
    refine ⟨⟨h.command, fun e he => h.owner e (hold he),
      fun e he e' he' => h.commands e (hold he) e' (hold he'),
      fun e he e' he' => h.names e (hold he) e' (hold he'),
      h.nodup.sublist (List.filter_sublist.map _), fun e he => h.next e (hold he)⟩,
      fun x n => ?_⟩
    constructor
    · rintro ⟨row', hrow', e, he, heq, hn⟩
      obtain ⟨he, hne⟩ := hmem.mp he
      refine ⟨?_, row', hrow', e, he, heq, hn⟩
      rintro rfl
      obtain rfl := Option.some.inj (hrow.symm.trans hrow')
      exact hne (h.commands e he e₀ he₀ (heq.trans hcommand.symm))
    · rintro ⟨hx, row', hrow', e, he, heq, hn⟩
      refine ⟨row', hrow', e, hmem.mpr ⟨he, ?_⟩, heq, hn⟩
      rintro rfl
      exact hx (h.id_eq hrow' hrow (heq.symm.trans hcommand))
  · rename_i hnone
    refine ⟨h, hsame fun n hn => ?_⟩
    obtain ⟨row, hrow, e, he, heq, -⟩ := hn
    rw [show db.jobs.lookup id = some row from hrow, Option.bind_some, List.find?_eq_none] at hnone
    exact hnone e he (by simpa using heq)

/-- The removal of the row of a job without an entry. -/
theorem Owned.deleteRow (h : Owned E db) (hfree : ∀ n, ¬ Named db id n) :
    Owned E (db.deleteRow id) ∧ ∀ x n, Named (db.deleteRow id) x n ↔ Named db x n := by
  have hlookup {x : String} (hx : x ≠ id) : (db.deleteRow id).jobs.lookup x = db.jobs.lookup x :=
    AList.lookup_erase_ne hx
  have hself : (db.deleteRow id).jobs.lookup id = none := AList.lookup_erase _ _
  refine ⟨⟨fun x row hrow => ?_, fun e he => ?_, h.commands, h.names, h.nodup, h.next⟩,
    fun x n => ?_⟩
  · by_cases hx : x = id
    · subst hx
      rw [hself] at hrow
      cases hrow
    · exact h.command x row ((hlookup hx).symm.trans hrow)
  · obtain ⟨x, row, hrow, hcommand, hschedule⟩ := h.owner e he
    refine ⟨x, row, (hlookup ?_).trans hrow, hcommand, hschedule⟩
    rintro rfl
    exact hfree e.jobname ⟨row, hrow, e, he, hcommand, rfl⟩
  · by_cases hx : x = id
    · subst hx
      refine iff_of_false ?_ (hfree n)
      rintro ⟨row, hrow, -⟩
      rw [hself] at hrow
      cases hrow
    · simp only [Named, hlookup hx]
      rfl

theorem Owned.setActive (h : Owned E db) (id : String) (active : Bool) :
    Owned E (db.setActive id active) := by
  unfold Db.setActive
  split
  · rename_i row hrow
    -- The row keeps its expression and its command.
    have hlookup (x : String) : ∀ r ∈ (db.jobs.insert id { row with active := active }).lookup x,
        ∃ r' ∈ db.jobs.lookup x, r.command = r'.command ∧ r.cronExpression = r'.cronExpression := by
      intro r hr
      rcases Table.lookup_insert_cases hr with ⟨rfl, rfl⟩ | ⟨-, hr'⟩
      · exact ⟨row, hrow, rfl, rfl⟩
      · exact ⟨r, hr', rfl, rfl⟩
    refine ⟨fun x r hr => ?_, fun e he => ?_, h.commands, h.names, h.nodup, h.next⟩
    · obtain ⟨r', hr', hcommand, -⟩ := hlookup x r hr
      rw [hcommand]
      exact h.command x r' hr'
    · obtain ⟨x, r, hr, hcommand, hschedule⟩ := h.owner e he
      by_cases hx : x = id
      · subst hx
        obtain rfl := Option.some.inj (hrow.symm.trans hr)
        exact ⟨x, _, AList.lookup_insert _, hcommand, hschedule⟩
      · exact ⟨x, r, (AList.lookup_insert_ne hx).trans hr, hcommand, hschedule⟩
  · exact h

/-! ## What the calls do -/

/-- The entries are those of tracked jobs after any number of the statements. -/
def Throughout (E : Texts π) (db : Db) (ss : List Statement) : Prop :=
  ∀ n, Owned E (exec db (ss.take n))

theorem Throughout.exec (h : Throughout E db ss) : Owned E (exec db ss) := by
  have := h ss.length
  rwa [List.take_length] at this

theorem Throughout.append {ss' : List Statement} (h : Throughout E db ss)
    (h' : Throughout E (Jobs.exec db ss) ss') : Throughout E db (ss ++ ss') :=
  forall_take_append h h'

section

variable (h : Owned E db) {s : Statement} (job : Job π)
include h

theorem throughout_nil : Throughout E db [] := by
  intro n
  rw [List.take_nil]
  exact h

theorem throughout_single (hs : Owned E (s db)) : Throughout E db [s] := by
  intro n
  rcases n with _ | n
  · exact h
  · rw [List.take_of_length_le (by simp)]
    exact hs

theorem throughout_pair {s' : Statement} (hs : Owned E (s db))
    (hs' : Owned E (s' (s db))) : Throughout E db [s, s'] :=
  (throughout_single h hs).append (throughout_single hs hs')

/-- A creation for a job without an entry. -/
theorem Owned.createCronJob (hfree : ∀ n, ¬ Named db job.id n)
    (clock : ℤ × ℤ) :
    Throughout E db (createCronJob E job clock) ∧
      ∀ x n, Named (exec db (createCronJob E job clock)) x n ↔
        give (Named db) (job.id, jobName clock.2) x n := by
  obtain ⟨hrow, hnamed⟩ := h.insertRow hfree job.cronExpression clock.1
  have hentry := hrow.schedule (AList.lookup_insert _)
    (fun n hn => hfree n ((hnamed job.id n).mp hn)) (jobName clock.2)
  exact ⟨throughout_pair h hrow hentry.1, fun x n => (hentry.2 x n).trans (give_congr hnamed _ x n)⟩

/-- A creation in the second the entry of the job is named after. -/
theorem Owned.createCronJob_again (clock : ℤ × ℤ)
    (hname : ∀ n, Named db job.id n → n = jobName clock.2) :
    Owned E (exec db (Jobs.createCronJob E job clock)) := by
  let command := generateCronCommand E job clock.1
  obtain ⟨jobid, hmem, hnodup, hlt, hle⟩ := h.mem_schedule (jobName clock.2) job.cronExpression command
  have hcommand := h.insertRow_command job job.cronExpression clock.1
  obtain ⟨active, hrow⟩ := lookup_insertRow db job.id job.cronExpression command
  -- The entries of other names belong to other jobs.
  have hother {e : CronEntry} (he : e ∈ db.cronJobs) (hne : e.jobname ≠ jobName clock.2) :
      ∃ x, x ≠ job.id ∧ ∃ row ∈ (db.insertRow job.id job.cronExpression command).jobs.lookup x,
        e.command = row.command ∧ e.schedule = row.cronExpression := by
    obtain ⟨x, row, hrow, heq, hschedule⟩ := h.owner e he
    have hx : x ≠ job.id := by
      rintro rfl
      exact hne (hname _ ⟨row, hrow, e, he, heq, rfl⟩)
    exact ⟨x, hx, row, (lookup_insertRow_of_ne hx).trans hrow, heq, hschedule⟩
  have hdiffer {e : CronEntry} (he : e ∈ db.cronJobs) (hne : e.jobname ≠ jobName clock.2) :
      e.command ≠ command := by
    intro heq
    obtain ⟨x, hx, row, hrow', heq', -⟩ := hother he hne
    obtain ⟨job', now', rfl, hjob'⟩ := hcommand x row hrow'
    exact hx (id_of_command (hjob'.symm.trans (heq'.symm.trans heq)))
  have hexec : exec db (Jobs.createCronJob E job clock) =
      { db.schedule (jobName clock.2) job.cronExpression command with
        jobs := (db.insertRow job.id job.cronExpression command).jobs } :=
    schedule_insertRow db job.id (jobName clock.2) job.cronExpression command
  rw [hexec]
  refine ⟨hcommand, fun e he => ?_, fun e he e' he' heq => ?_, fun e he e' he' heq => ?_, hnodup,
    fun e he => ?_⟩
  · rcases (hmem e).mp he with ⟨he, hne⟩ | rfl
    · obtain ⟨x, -, hrest⟩ := hother he hne
      exact ⟨x, hrest⟩
    · exact ⟨job.id, _, hrow, rfl, rfl⟩
  · exact eq_of_replaced CronEntry.command hmem h.commands (fun _ he hne => hdiffer he hne) e he e'
      he' heq
  · exact eq_of_replaced CronEntry.jobname hmem h.names (fun _ _ hne => hne) e he e' he' heq
  · rcases (hmem e).mp he with ⟨he, -⟩ | rfl
    · exact lt_of_lt_of_le (h.next e he) hle
    · exact hlt

end

theorem jobs_createCronJob (db : Db) (job : Job π) (clock : ℤ × ℤ) :
    (exec db (createCronJob E job clock)).jobs =
      (db.insertRow job.id job.cronExpression (generateCronCommand E job clock.1)).jobs := by
  exact jobs_schedule _ _ _ _

theorem jobs_removeCronJob (db : Db) (id : String) :
    (exec db (removeCronJob id)).jobs = db.jobs.erase id := by
  show (db.unscheduleJob id).jobs.erase id = _
  unfold Db.unscheduleJob
  split <;> rfl

theorem Owned.removeCronJob (h : Owned E db) (id : String) :
    Throughout E db (removeCronJob id) ∧
      ∀ x n, Named (exec db (removeCronJob id)) x n ↔ x ≠ id ∧ Named db x n := by
  obtain ⟨hentry, hnamed⟩ := h.unscheduleJob id
  have hrow := hentry.deleteRow (fun n hn => ((hnamed id n).mp hn).1 rfl)
  exact ⟨throughout_pair h hentry hrow.1, fun x n => (hrow.2 x n).trans (hnamed x n)⟩

theorem Owned.updateCronJob (h : Owned E db) (job : Job π) (clock : ℤ × ℤ) :
    Throughout E db (updateCronJob E job clock) ∧
      ∀ x n, Named (exec db (updateCronJob E job clock)) x n ↔
        give (Named db) (job.id, jobName clock.2) x n := by
  obtain ⟨hremoved, hnamed⟩ := h.removeCronJob job.id
  have hcreated := hremoved.exec.createCronJob job
    (fun n hn => ((hnamed job.id n).mp hn).1 rfl) clock
  refine ⟨hremoved.append hcreated.1, fun x n => ?_⟩
  rw [Jobs.updateCronJob, exec_append, hcreated.2]
  simp only [give, hnamed]
  constructor
  · rintro (hnew | ⟨hx, ⟨-, hold⟩, hn⟩)
    · exact .inl hnew
    · exact .inr ⟨hx, hold, hn⟩
  · rintro (hnew | ⟨hx, hold, hn⟩)
    · exact .inl hnew
    · exact .inr ⟨hx, ⟨hx, hold⟩, hn⟩

end Backbone.Jobs.PgSync
