import Backbone.Jobs.Scheduler

/-!
# Status changes under concurrent operations

An operation writes back the copy it has read, whatever has happened to the job since. While the status
of the copy is still the stored one, and nothing is paused that runs or has failed, the stored status
only moves as `valid_transitions` says; then a job in execution is stored as running, completed or
cancelled, so that no second execution finds it scheduled.

Reference: `backbone-jobs/src/scheduler.rs`.
-/

namespace Backbone.Jobs

open Machine

variable {π : Type} {job : Job π} {w : World π} {zones : TimeZones} {i : ℕ}
  {env : Env} {c : Call π} {updated : JobStatus} {c' : Option (Call π)}

/-! ## What the calls carry -/

/-- The jobs an operation still has to execute were scheduled when it read them. -/
def AllScheduled (rest : List (Job π)) : Prop := ∀ job ∈ rest, job.status = .scheduled

namespace Call

/-- The copies of a call have the statuses its place in the code implies. -/
def Local : Call π → Prop
  | .scheduling _ | .updating _ _ | .writing _ => True
  | .moving m read job => ∃ zones now, m.apply zones now read = .ok job
  | .listed pending => AllScheduled pending
  | .starting job rest => job.status = .scheduled ∧ AllScheduled rest
  | .activating copy rest | .executing copy rest | .finishing copy _ rest =>
    copy.status = .running ∧ AllScheduled rest
  | .rescheduling copy rest => copy.status = .completed ∧ AllScheduled rest
  | .retrying copy rest => copy.status = .failed ∧ AllScheduled rest
  | .deactivating _ rest => AllScheduled rest

/-- The job the call has in execution: it is written as running, and its outcome is not written yet. -/
def inProgress : Call π → Option String
  | .activating copy _ | .executing copy _ | .finishing copy _ _ => some copy.id
  | _ => none

/-- The jobs a call may write at its next step, a creation aside. -/
def Writes : Call π → Job π → Prop
  | .writing job, written => written = job
  | .moving _ _ job, written => written = job
  | .starting job _, written => job.markAsRunning = .ok written
  | .finishing copy succeeded _, written =>
    ∃ now, (if succeeded then copy.markAsCompleted now else copy.markAsFailed now) = .ok written
  | .rescheduling copy _, written => written.id = copy.id ∧ written.status = copy.status
  | .retrying copy _, written =>
    copy.canRetry = true ∧ written.id = copy.id ∧ written.status = .scheduled
  | _, _ => False

end Call

theorem Move.id_apply {now : ℤ} {m : Move} {read : Job π} (h : m.apply zones now read = .ok job) :
    job.id = read.id := by
  cases m with
  | pause =>
    obtain ⟨-, rfl⟩ := Job.pause_eq_ok.mp h
    rfl
  | cancel =>
    obtain ⟨-, rfl⟩ := Job.cancel_eq_ok.mp h
    rfl
  | resume =>
    obtain ⟨resumed, hresumed, h⟩ := bind_eq_ok.mp h
    obtain ⟨next, -, h⟩ := bind_eq_ok.mp h
    obtain ⟨-, rfl⟩ := Job.resume_eq_ok.mp hresumed
    cases h
    rfl

/-! ## What a step does -/

/-- What a step of a call does: it writes no job, creates one, or writes one back. -/
inductive Stepped (w : World π) (i : ℕ) (c : Option (Call π)) : World π → Prop
  | quiet (active : List String) (c' : Option (Call π)) (hlocal : ∀ d ∈ c', d.Local)
      (hprogress : ∀ d ∈ c', ∀ id ∈ d.inProgress, ∃ d₀ ∈ c, id ∈ d₀.inProgress)
      (hrescheduling : ∀ copy rest, c' ≠ some (.rescheduling copy rest)) :
      Stepped w i c ⟨w.jobs, active, Function.update w.calls i c'⟩
  | creates (job : Job π) (hnew : job.id ∉ w.jobs) :
      Stepped w i c ⟨w.jobs.insert job.id job, w.activeJobs, Function.update w.calls i none⟩
  | writes (job : Job π) (d : Call π) (c' : Option (Call π)) (hd : c = some d)
      (hstored : job.id ∈ w.jobs) (hwrites : d.Writes job) (hlocal : ∀ d' ∈ c', d'.Local)
      (hprogress : ∀ d' ∈ c', ∀ id ∈ d'.inProgress, id = job.id ∧ ∃ read rest, d = .starting read rest)
      (hrescheduling : ∀ copy rest, c' = some (.rescheduling copy rest) →
        copy.id = job.id ∧ job.status = .completed) :
      Stepped w i c ⟨w.jobs.insert job.id job, w.activeJobs, Function.update w.calls i c'⟩

section Stepped

variable {w : World π} {i : ℕ} {c : Option (Call π)} {d : Call π} {rest : List (Job π)}
  (active : List String)

theorem Stepped.done : Stepped w i c ⟨w.jobs, active, Function.update w.calls i none⟩ :=
  .quiet active none (by simp) (by simp) (by simp)

/-- A step to another place of the same operation. -/
theorem Stepped.goes (hlocal : d.Local)
    (hprogress : ∀ id ∈ d.inProgress, ∃ d₀ ∈ c, id ∈ d₀.inProgress)
    (hrescheduling : ∀ copy rest, d ≠ .rescheduling copy rest) :
    Stepped w i c ⟨w.jobs, active, Function.update w.calls i (some d)⟩ := by
  refine .quiet active (some d) ?_ ?_ ?_
  · rintro d' ⟨⟩
    exact hlocal
  · rintro d' ⟨⟩
    exact hprogress
  · rintro copy rest h
    exact hrescheduling copy rest (Option.some.inj h)

/-- A step to a place at which no job is in execution. -/
theorem Stepped.goesIdle (hlocal : d.Local) (hidle : d.inProgress = none)
    (hrescheduling : ∀ copy rest, d ≠ .rescheduling copy rest) :
    Stepped w i c (w.setCall i (some d)) := by
  refine .goes w.activeJobs hlocal (fun id hid => ?_) hrescheduling
  rw [hidle] at hid
  cases hid

/-- An operation that goes on to its next job. -/
theorem Stepped.goOn (hrest : AllScheduled rest) :
    Stepped w i c ({ w with activeJobs := active }.goOn i rest) := by
  cases rest with
  | nil => exact .done active
  | cons job rest =>
    refine .goes active (d := .starting job rest) ⟨?_, ?_⟩ ?_ (by simp)
    · exact hrest job List.mem_cons_self
    · exact fun k hk => hrest k (List.mem_cons_of_mem _ hk)
    · intro id hid
      cases hid

/-- A write of the storage succeeds, or ends the execution. -/
theorem Stepped.update (hc : c = some d) {c' : Option (Call π)} (hrest : AllScheduled rest)
    (hwrites : d.Writes job) (hlocal : ∀ d' ∈ c', d'.Local)
    (hprogress : ∀ d' ∈ c', ∀ id ∈ d'.inProgress, id = job.id ∧ ∃ read rest, d = .starting read rest)
    (hrescheduling : ∀ copy rest, c' = some (.rescheduling copy rest) →
      copy.id = job.id ∧ job.status = .completed) :
    Stepped w i c (w.update i job rest fun w => w.setCall i c') := by
  unfold World.update
  split
  · rename_i jobs hjobs
    obtain ⟨hstored, rfl⟩ := Storage.updateJob_eq_ok.mp hjobs
    exact .writes job d c' hc hstored hwrites hlocal hprogress hrescheduling
  · exact .goOn w.activeJobs hrest

/-- A write of the storage after which no job is in execution. -/
theorem Stepped.updateIdle {d' : Call π} (hc : c = some d) (hrest : AllScheduled rest)
    (hwrites : d.Writes job) (hlocal : d'.Local) (hidle : d'.inProgress = none)
    (hrescheduling : ∀ copy rest, d' = .rescheduling copy rest →
      copy.id = job.id ∧ job.status = .completed) :
    Stepped w i c (w.update i job rest fun w => w.setCall i (some d')) := by
  refine .update hc hrest hwrites ?_ ?_ fun copy rest h => hrescheduling copy rest (Option.some.inj h)
  · rintro _ ⟨⟩
    exact hlocal
  · rintro _ ⟨⟩ id hid
    rw [hidle] at hid
    cases hid

end Stepped

/-- Every operation stops before its first write. -/
theorem stepped_start {op : Operation π} :
    w.start zones i env op = w ∨ Stepped w i none (w.start zones i env op) := by
  cases op with
  | scheduleJob job =>
    simp only [World.start]
    split
    · exact .inr (.goesIdle trivial rfl (by simp))
    · exact .inl rfl
  | updateJob job =>
    simp only [World.start]
    split
    · exact .inr (.goesIdle trivial rfl (by simp))
    · exact .inl rfl
  | moveJob m id =>
    simp only [World.start]
    split
    · exact .inl rfl
    · rename_i read hread
      split
      · rename_i job hjob
        exact .inr (.goesIdle ⟨zones, env.now, hjob⟩ rfl (by simp))
      · exact .inl rfl
  | triggerJob id =>
    simp only [World.start]
    split
    · exact .inl rfl
    · rename_i job hjob
      split
      · rename_i hscheduled
        refine .inr (.goesIdle ⟨by simpa [Job.isScheduled] using hscheduled, ?_⟩ rfl (by simp))
        intro job hjob
        cases hjob
      · exact .inl rfl
  | processPendingJobs =>
    simp only [World.start]
    split
    · refine .inr (.goesIdle ?_ rfl (by simp))
      intro job hjob
      exact Storage.isScheduled_of_mem_getPendingJobs hjob
    · exact .inl rfl

theorem stepped_resume {maxConcurrentJobs : ℕ} (hlocal : c.Local) :
    Stepped w i (some c) (w.resume zones maxConcurrentJobs i env c) := by
  have hnil : AllScheduled ([] : List (Job π)) := by
    intro job hjob
    cases hjob
  cases c with
  | scheduling job =>
    simp only [World.resume]
    split
    · rename_i jobs hjobs
      obtain ⟨hnew, rfl⟩ := Storage.createJob_eq_ok.mp hjobs
      exact .creates job hnew
    · exact .done w.activeJobs
  | updating job existing =>
    have hwriting (written : Job π) : Stepped w i (some (.updating job existing))
        (w.setCall i (some (.writing written))) := .goesIdle trivial rfl (by simp)
    simp only [World.resume]
    split
    · exact .done w.activeJobs
    · split
      · exact hwriting job
      · split
        · exact hwriting _
        · exact .done w.activeJobs
  | writing job => exact .update rfl hnil rfl (by simp) (by simp) (by simp)
  | moving m read job => exact .update rfl hnil rfl (by simp) (by simp) (by simp)
  | listed pending =>
    refine .goOn w.activeJobs fun job hjob => hlocal job (List.mem_of_mem_take hjob)
  | starting job rest =>
    obtain ⟨-, hrest⟩ := hlocal
    simp only [World.resume]
    split
    · rename_i copy hcopy
      obtain ⟨-, rfl⟩ := Job.markAsRunning_eq_ok.mp hcopy
      refine .update rfl hrest hcopy ?_ ?_ (by simp)
      · rintro d ⟨⟩
        exact ⟨rfl, hrest⟩
      · rintro d ⟨⟩ id ⟨⟩
        exact ⟨rfl, _, _, rfl⟩
    · exact .goOn w.activeJobs hrest
  | activating copy rest =>
    refine .goes _ (d := .executing copy rest) hlocal (fun id hid => ⟨_, rfl, hid⟩) (by simp)
  | executing copy rest =>
    refine .goes w.activeJobs (d := .finishing copy env.succeeds rest) hlocal
      (fun id hid => ⟨_, rfl, hid⟩) (by simp)
  | finishing copy succeeded rest =>
    obtain ⟨-, hrest⟩ := hlocal
    cases succeeded with
    | true =>
      simp only [World.resume]
      split
      · rename_i written hwritten
        have hcompleted := (Job.markAsCompleted_eq_ok.mp hwritten).2
        refine .updateIdle rfl hrest ⟨env.now, hwritten⟩ ⟨by rw [hcompleted], hrest⟩ rfl ?_
        rintro copy rest ⟨⟩
        exact ⟨rfl, by rw [hcompleted]⟩
      · exact .goOn w.activeJobs hrest
    | false =>
      simp only [World.resume]
      split
      · rename_i written hwritten
        have hfailed := (Job.markAsFailed_eq_ok.mp hwritten).2
        exact .updateIdle rfl hrest ⟨env.now, hwritten⟩ ⟨by rw [hfailed], hrest⟩ rfl (by simp)
      · exact .goOn w.activeJobs hrest
  | rescheduling copy rest =>
    obtain ⟨-, hrest⟩ := hlocal
    simp only [World.resume]
    split
    · exact .updateIdle rfl hrest ⟨rfl, rfl⟩ hrest rfl (by simp)
    · exact .goesIdle hrest rfl (by simp)
  | retrying copy rest =>
    obtain ⟨-, hrest⟩ := hlocal
    simp only [World.resume]
    split
    · rename_i hretry
      split
      · rename_i written hwritten
        obtain ⟨-, rfl⟩ := Job.resetForRetry_eq_ok.mp hwritten
        exact .updateIdle rfl hrest ⟨hretry, rfl, rfl⟩ hrest rfl (by simp)
      · exact .goOn w.activeJobs hrest
    · exact .goesIdle hrest rfl (by simp)
  | deactivating id rest =>
    exact .goOn (w.activeJobs.filter (· ≠ id)) hlocal

/-! ## Careful steps -/

/-- The status the operation has read, or has written last, is the stored one. -/
def Fresh (w : World π) (copy : Job π) : Prop :=
  ∀ j ∈ w.jobs.lookup copy.id, j.status = copy.status

/-- What an update may make of a status: a transition of the table, except that it does not declare a
running job failed. -/
def UpdateAllowed (stored updated : JobStatus) : Prop :=
  updated = stored ∨
    (stored.canTransitionTo updated = true ∧ ¬ (stored = .running ∧ updated = .failed))

instance (stored updated : JobStatus) : Decidable (UpdateAllowed stored updated) :=
  inferInstanceAs (Decidable (_ ∨ _))

/-- A terminal status stays. -/
theorem UpdateAllowed.eq_of_isTerminal {stored : JobStatus}
    (h : UpdateAllowed stored updated) (hterminal : stored.isTerminal = true) :
    updated = stored := by
  rcases h with heq | ⟨htransition, -⟩
  · exact heq
  · rw [(JobStatus.isTerminal_iff stored).mp hterminal updated] at htransition
    cases htransition

/-- A running job stays running, or ends. -/
theorem UpdateAllowed.of_running (h : UpdateAllowed .running updated) :
    updated = .running ∨ updated.isTerminal = true := by
  revert h
  cases updated <;> decide

/-- A write finds the status its operation has read last; a pause has read a job that is scheduled or
paused; an update carries the stored status or one that the table allows. -/
def CarefulCall (w : World π) : Call π → Prop
  | .writing job => ∀ j ∈ w.jobs.lookup job.id, UpdateAllowed j.status job.status
  | .moving m read _ => Fresh w read ∧ (m = .pause → read.status = .scheduled ∨ read.status = .paused)
  | .starting job _ => Fresh w job
  | .finishing copy _ _ => Fresh w copy
  | .retrying copy _ => copy.canRetry = true → Fresh w copy
  | _ => True

instance (w : World π) (copy : Job π) : Decidable (Fresh w copy) :=
  inferInstanceAs (Decidable (∀ j ∈ w.jobs.lookup copy.id, j.status = copy.status))

instance (w : World π) : ∀ c, Decidable (CarefulCall w c)
  | .writing job => inferInstanceAs (Decidable (∀ j ∈ w.jobs.lookup job.id, _))
  | .moving _ _ _ => inferInstanceAs (Decidable (_ ∧ (_ → _)))
  | .starting job _ => inferInstanceAs (Decidable (Fresh w job))
  | .finishing copy _ _ => inferInstanceAs (Decidable (Fresh w copy))
  | .retrying copy _ => inferInstanceAs (Decidable (_ → Fresh w copy))
  | .scheduling _ | .updating _ _ | .listed _ | .activating _ _ | .executing _ _
  | .rescheduling _ _ | .deactivating _ _ => isTrue trivial

/-- The steps of careful callers. -/
def Careful (w : World π) : Act π → Prop
  | .start _ _ _ => True
  | .resume i _ => ∀ c ∈ w.calls i, CarefulCall w c

instance (w : World π) : ∀ a, Decidable (Careful w a)
  | .start _ _ _ => isTrue trivial
  | .resume i _ => inferInstanceAs (Decidable (∀ c ∈ w.calls i, CarefulCall w c))

/-! ## The invariant -/

/-- A job in execution is stored as running, or has been completed or cancelled meanwhile. -/
structure Sound (w : World π) : Prop where
  locals : ∀ i, ∀ c ∈ w.calls i, c.Local
  stored : ∀ i, ∀ c ∈ w.calls i, ∀ id ∈ c.inProgress, ∃ j ∈ w.jobs.lookup id,
    j.status = .running ∨ j.status.isTerminal = true
  one : ∀ i i', ∀ c ∈ w.calls i, ∀ c' ∈ w.calls i', ∀ id ∈ c.inProgress, id ∈ c'.inProgress → i = i'
  completed : ∀ i copy rest, w.calls i = some (.rescheduling copy rest) →
    ∃ j ∈ w.jobs.lookup copy.id, j.status = .completed

theorem sound_new : Sound (World.new π) where
  locals i c hc := by cases hc
  stored i c hc := by cases hc
  one i i' c hc := by cases hc
  completed i copy rest hc := by cases hc

/-- What a careful write makes of the stored status. -/
theorem Sound.change (hs : Sound w) (hi : w.calls i = some c)
    (hcareful : CarefulCall w c) (hwrites : c.Writes job) {j : Job π}
    (hj : w.jobs.lookup job.id = some j) :
    UpdateAllowed j.status job.status ∨
      (c.inProgress = some job.id ∧ j.status = .running ∧ job.status = .failed) := by
  have hlocal := hs.locals i c hi
  cases c with
  | writing written =>
    obtain rfl : job = written := hwrites
    exact .inl (hcareful j hj)
  | moving m read written =>
    obtain rfl : job = written := hwrites
    obtain ⟨zones, now, hm⟩ := hlocal
    obtain ⟨hfresh, hpause⟩ := hcareful
    have hstatus : j.status = read.status := hfresh j (by rwa [← Move.id_apply hm])
    rw [hstatus]
    cases m with
    | pause =>
      obtain ⟨-, rfl⟩ := Job.pause_eq_ok.mp hm
      rcases hpause rfl with hread | hread
      · exact .inl (.inr (by simp [hread, JobStatus.canTransitionTo, JobStatus.validTransitions]))
      · exact .inl (.inl hread.symm)
    | cancel =>
      refine .inl (.inr ⟨Job.canTransitionTo_of_cancel hm, ?_⟩)
      obtain ⟨-, rfl⟩ := Job.cancel_eq_ok.mp hm
      simp
    | resume =>
      obtain ⟨resumed, hresumed, hm⟩ := bind_eq_ok.mp hm
      obtain ⟨next, -, hm⟩ := bind_eq_ok.mp hm
      obtain ⟨hread, rfl⟩ := Job.resume_eq_ok.mp hresumed
      cases hm
      refine .inl (.inr ⟨?_, by simp⟩)
      rw [hread]
      rfl
  | starting read rest =>
    obtain ⟨hread, rfl⟩ := Job.markAsRunning_eq_ok.mp hwrites
    have hstatus : j.status = read.status := hcareful j hj
    rw [hstatus, hread]
    exact .inl (.inr ⟨rfl, by simp⟩)
  | finishing copy succeeded rest =>
    obtain ⟨now, hnow⟩ := hwrites
    cases succeeded with
    | true =>
      obtain ⟨hrunning, rfl⟩ := Job.markAsCompleted_eq_ok.mp hnow
      have hstatus : j.status = copy.status := hcareful j hj
      rw [hstatus, hrunning]
      exact .inl (.inr ⟨rfl, by simp⟩)
    | false =>
      obtain ⟨hrunning, rfl⟩ := Job.markAsFailed_eq_ok.mp hnow
      have hstatus : j.status = copy.status := hcareful j hj
      exact .inr ⟨rfl, hstatus.trans hrunning, rfl⟩
  | rescheduling copy rest =>
    obtain ⟨hid, hsame⟩ := hwrites
    obtain ⟨j', hj', hcompleted⟩ := hs.completed i copy rest hi
    rw [hid] at hj
    obtain rfl : j = j' := Option.some.inj (hj.symm.trans hj')
    exact .inl (.inl (by rw [hsame, hcompleted, hlocal.1]))
  | retrying copy rest =>
    obtain ⟨hretry, hid, hscheduled⟩ := hwrites
    have hstatus : j.status = copy.status := hcareful hretry j (by rwa [← hid])
    rw [hstatus, hlocal.1, hscheduled]
    exact .inl (.inr ⟨rfl, by simp⟩)
  | scheduling | updating | listed | activating | executing | deactivating => cases hwrites

theorem Sound.quiet (hs : Sound w) {active : List String}
    (hlocal : ∀ d ∈ c', d.Local)
    (hprogress : ∀ d ∈ c', ∀ id ∈ d.inProgress, ∃ d₀ ∈ w.calls i, id ∈ d₀.inProgress)
    (hrescheduling : ∀ copy rest, c' ≠ some (.rescheduling copy rest)) :
    Sound ⟨w.jobs, active, Function.update w.calls i c'⟩ := by
  -- What is in progress behind the step was in progress before it.
  have hbefore {k : ℕ} {d : Call π} (hd : Function.update w.calls i c' k = some d) {id : String}
      (hid : id ∈ d.inProgress) : ∃ d₀ ∈ w.calls k, id ∈ d₀.inProgress := by
    by_cases hk : k = i
    · subst hk
      rw [Function.update_self] at hd
      exact hprogress d hd id hid
    · rw [Function.update_of_ne hk] at hd
      exact ⟨d, hd, hid⟩
  refine ⟨fun k d hd => ?_, fun k d hd id hid => ?_, fun k k' d hd d' hd' id hid hid' => ?_,
    fun k copy rest hk => ?_⟩
  · by_cases hk : k = i
    · subst hk
      exact hlocal d (by simpa using hd)
    · exact hs.locals k d (by simpa [Function.update_of_ne hk] using hd)
  · obtain ⟨d₀, hd₀, hid₀⟩ := hbefore hd hid
    exact hs.stored k d₀ hd₀ id hid₀
  · obtain ⟨d₀, hd₀, hid₀⟩ := hbefore hd hid
    obtain ⟨d₁, hd₁, hid₁⟩ := hbefore hd' hid'
    exact hs.one k k' d₀ hd₀ d₁ hd₁ id hid₀ hid₁
  · by_cases hki : k = i
    · subst hki
      exact absurd (by simpa using hk) (hrescheduling copy rest)
    · exact hs.completed k copy rest (by simpa [Function.update_of_ne hki] using hk)

theorem Sound.creates (hs : Sound w) (hnew : job.id ∉ w.jobs) :
    Sound ⟨w.jobs.insert job.id job, w.activeJobs, Function.update w.calls i none⟩ := by
  have hquiet : Sound ⟨w.jobs, w.activeJobs, Function.update w.calls i none⟩ :=
    hs.quiet (by simp) (by simp) (by simp)
  have hother {id : String} {j : Job π} (hj : w.jobs.lookup id = some j) :
      (w.jobs.insert job.id job).lookup id = some j := by
    rw [AList.lookup_insert_ne]
    · exact hj
    · rintro rfl
      exact hnew (AList.lookup_isSome.mp (by simp [hj]))
  refine ⟨hquiet.locals, fun k d hd id hid => ?_, hquiet.one, fun k copy rest hk => ?_⟩
  · obtain ⟨j, hj, hstatus⟩ := hquiet.stored k d hd id hid
    exact ⟨j, hother hj, hstatus⟩
  · obtain ⟨j, hj, hstatus⟩ := hquiet.completed k copy rest hk
    exact ⟨j, hother hj, hstatus⟩

theorem Sound.writes (hs : Sound w) {d : Call π} (hd : w.calls i = some d)
    (hcareful : CarefulCall w d) (hstored : job.id ∈ w.jobs) (hwrites : d.Writes job)
    (hlocal : ∀ d' ∈ c', d'.Local)
    (hprogress : ∀ d' ∈ c', ∀ id ∈ d'.inProgress, id = job.id ∧ ∃ read rest, d = .starting read rest)
    (hrescheduling : ∀ copy rest, c' = some (.rescheduling copy rest) →
      copy.id = job.id ∧ job.status = .completed) :
    Sound ⟨w.jobs.insert job.id job, w.activeJobs, Function.update w.calls i c'⟩ := by
  obtain ⟨j, hj⟩ := Option.isSome_iff_exists.mp (AList.lookup_isSome.mpr hstored)
  have hchange := hs.change hd hcareful hwrites hj
  -- When the step starts an execution, no other call has the job in progress.
  have hfree {read : Job π} {rest : List (Job π)} (hstarting : d = .starting read rest) {k : ℕ}
      {d' : Call π} (hk : w.calls k = some d') : job.id ∉ d'.inProgress := by
    subst hstarting
    intro hid
    obtain ⟨j', hj', hstatus⟩ := hs.stored k d' hk job.id hid
    obtain rfl : j = j' := Option.some.inj (hj.symm.trans hj')
    obtain ⟨hread, rfl⟩ := Job.markAsRunning_eq_ok.mp hwrites
    have hscheduled : j.status = .scheduled := (hcareful j hj).trans hread
    simp [hscheduled, JobStatus.isTerminal] at hstatus
  have hlookup {id : String} (hid : id ≠ job.id) :
      (w.jobs.insert job.id job).lookup id = w.jobs.lookup id := AList.lookup_insert_ne hid
  refine ⟨fun k d' hk => ?_, fun k d' hk id hid => ?_, fun k k' d₁ hk d₂ hk' id hid hid' => ?_,
    fun k copy rest hk => ?_⟩
  · by_cases hki : k = i
    · subst hki
      exact hlocal d' (by simpa using hk)
    · exact hs.locals k d' (by simpa [Function.update_of_ne hki] using hk)
  · by_cases hki : k = i
    · subst hki
      obtain ⟨rfl, read, rest, rfl⟩ := hprogress d' (by simpa using hk) id hid
      obtain ⟨-, rfl⟩ := Job.markAsRunning_eq_ok.mp hwrites
      exact ⟨_, AList.lookup_insert _, .inl rfl⟩
    · have hk₀ : w.calls k = some d' := by simpa [Function.update_of_ne hki] using hk
      obtain ⟨j', hj', hstatus⟩ := hs.stored k d' hk₀ id hid
      by_cases hid' : id = job.id
      · subst hid'
        obtain rfl : j = j' := Option.some.inj (hj.symm.trans hj')
        refine ⟨job, AList.lookup_insert _, ?_⟩
        rcases hchange with hallowed | ⟨hown, -, -⟩
        · rcases hstatus with hrunning | hterminal
          · exact (hrunning ▸ hallowed).of_running
          · rw [hallowed.eq_of_isTerminal hterminal]
            exact .inr hterminal
        · exact absurd (hs.one k i d' hk₀ d hd _ hid hown) hki
      · exact ⟨j', (hlookup hid').trans hj', hstatus⟩
  · by_cases hki : k = i
    · by_cases hki' : k' = i
      · rw [hki, hki']
      · subst hki
        obtain ⟨rfl, read, rest, hstarting⟩ := hprogress d₁ (by simpa using hk) id hid
        exact absurd hid' (hfree hstarting (by simpa [Function.update_of_ne hki'] using hk'))
    · by_cases hki' : k' = i
      · subst hki'
        obtain ⟨rfl, read, rest, hstarting⟩ := hprogress d₂ (by simpa using hk') id hid'
        exact absurd hid (hfree hstarting (by simpa [Function.update_of_ne hki] using hk))
      · exact hs.one k k' d₁ (by simpa [Function.update_of_ne hki] using hk) d₂
          (by simpa [Function.update_of_ne hki'] using hk') id hid hid'
  · by_cases hki : k = i
    · subst hki
      obtain ⟨hid, hcompleted⟩ := hrescheduling copy rest (by simpa using hk)
      rw [hid]
      exact ⟨job, AList.lookup_insert _, hcompleted⟩
    · obtain ⟨j', hj', hcompleted⟩ :=
        hs.completed k copy rest (by simpa [Function.update_of_ne hki] using hk)
      by_cases hid : copy.id = job.id
      · rw [hid] at hj' ⊢
        obtain rfl : j = j' := Option.some.inj (hj.symm.trans hj')
        refine ⟨job, AList.lookup_insert _, ?_⟩
        rcases hchange with hallowed | ⟨-, hrunning, -⟩
        · rw [hallowed.eq_of_isTerminal (by rw [hcompleted]; rfl), hcompleted]
        · rw [hcompleted] at hrunning
          cases hrunning
      · exact ⟨j', (hlookup hid).trans hj', hcompleted⟩

/-! ## Steps -/

variable {zones : TimeZones} {maxConcurrentJobs : ℕ} {w' : World π} {a : Act π}

/-- The stored jobs stay, and their statuses change as the table allows. -/
def ValidChanges (w w' : World π) : Prop :=
  ∀ id, ∀ j ∈ w.jobs.lookup id, ∃ j' ∈ w'.jobs.lookup id,
    j'.status ≠ j.status → j.status.canTransitionTo j'.status = true

theorem validChanges_of_eq (h : w'.jobs = w.jobs) : ValidChanges w w' := by
  intro id j hj
  rw [h]
  exact ⟨j, hj, fun hne => absurd rfl hne⟩

theorem Sound.of_stepped (hs : Sound w) (hcareful : ∀ c ∈ w.calls i, CarefulCall w c)
    (h : Stepped w i (w.calls i) w') : Sound w' ∧ ValidChanges w w' := by
  cases h with
  | quiet active c' hlocal hprogress hrescheduling =>
    exact ⟨hs.quiet hlocal hprogress hrescheduling, validChanges_of_eq rfl⟩
  | creates job hnew =>
    refine ⟨hs.creates hnew, fun id j hj => ⟨j, ?_, fun hne => absurd rfl hne⟩⟩
    show (w.jobs.insert job.id job).lookup id = some j
    rw [AList.lookup_insert_ne]
    · exact hj
    · rintro rfl
      exact hnew (AList.lookup_isSome.mp (by simp [show w.jobs.lookup job.id = some j from hj]))
  | writes job d c' hd hstored hwrites hlocal hprogress hrescheduling =>
    refine ⟨hs.writes hd (hcareful d hd) hstored hwrites hlocal hprogress hrescheduling,
      fun id j hj => ?_⟩
    by_cases hid : id = job.id
    · subst hid
      refine ⟨job, AList.lookup_insert _, fun hne => ?_⟩
      rcases hs.change hd (hcareful d hd) hwrites hj with (heq | ⟨htransition, -⟩) | ⟨-, hrun, hfail⟩
      · exact absurd heq hne
      · exact htransition
      · rw [hrun, hfail]
        rfl
    · refine ⟨j, ?_, fun hne => absurd rfl hne⟩
      show (w.jobs.insert job.id job).lookup id = some j
      rw [AList.lookup_insert_ne hid]
      exact hj

theorem Sound.step (hs : Sound w) (hcareful : Careful w a) :
    Sound (w.step zones maxConcurrentJobs a) ∧
      ValidChanges w (w.step zones maxConcurrentJobs a) := by
  cases a with
  | start i op env =>
    simp only [World.step]
    split
    · rename_i hi
      have hstart : w.start zones i env op = w ∨ Stepped w i none (w.start zones i env op) :=
        stepped_start
      rcases hstart with heq | h
      · rw [heq]
        exact ⟨hs, validChanges_of_eq rfl⟩
      · rw [← hi] at h
        exact hs.of_stepped (by simp [hi]) h
    · exact ⟨hs, validChanges_of_eq rfl⟩
  | resume i env =>
    simp only [World.step]
    split
    · exact ⟨hs, validChanges_of_eq rfl⟩
    · rename_i c hi
      have h : Stepped w i (some c) (w.resume zones maxConcurrentJobs i env c) :=
        stepped_resume (hs.locals i c hi)
      rw [← hi] at h
      exact hs.of_stepped hcareful h

/-- The step writes that the job is running: its execution starts. -/
def Starts (w : World π) (id : String) : Act π → Prop
  | .start _ _ _ => False
  | .resume i _ => ∃ job rest, w.calls i = some (.starting job rest) ∧ job.id = id

/-- A cancelled job is not started, and stays cancelled. -/
def CancelledStays (zones : TimeZones) (maxConcurrentJobs : ℕ) (w : World π) (a : Act π) : Prop :=
  ∀ id, ∀ j ∈ w.jobs.lookup id, j.status = .cancelled →
    ¬ Starts w id a ∧
      ∃ j' ∈ (w.step zones maxConcurrentJobs a).jobs.lookup id, j'.status = .cancelled

theorem Sound.cancelledStays (hs : Sound w) (hcareful : Careful w a) :
    CancelledStays zones maxConcurrentJobs w a := by
  intro id j hj hcancelled
  constructor
  · intro hstarts
    cases a with
    | start i op env => exact hstarts
    | resume i env =>
      obtain ⟨job, rest, hi, rfl⟩ := hstarts
      have hfresh : j.status = job.status := hcareful _ hi j hj
      have hlocal := hs.locals i _ hi
      rw [hcancelled, hlocal.1] at hfresh
      cases hfresh
  · have hvalid : ValidChanges w (w.step zones maxConcurrentJobs a) := (hs.step hcareful).2
    obtain ⟨j', hj', hchange⟩ := hvalid id j hj
    refine ⟨j', hj', ?_⟩
    by_contra hne
    have := hchange (by rwa [hcancelled])
    rw [hcancelled] at this
    cases this

/-! ## Status changes over runs -/

/-- Where the steps lead. -/
def reached (zones : TimeZones) (maxConcurrentJobs : ℕ) (acts : List (Act π)) : World π :=
  run (World.step zones maxConcurrentJobs) (World.new π) acts

/-- At most one call has a job in execution. -/
def OneExecution (w : World π) : Prop :=
  ∀ i i', ∀ c ∈ w.calls i, ∀ c' ∈ w.calls i', ∀ id ∈ c.inProgress, id ∈ c'.inProgress → i = i'

/-- In a run of careful steps every change of a stored status is one of the table, a cancelled job is
not started and stays cancelled, and at most one execution of a job is in progress. -/
theorem status_changes (zones : TimeZones) (maxConcurrentJobs : ℕ) {acts : List (Act π)}
    (h : Along (World.step zones maxConcurrentJobs) Careful (World.new π) acts) :
    Along (World.step zones maxConcurrentJobs)
        (fun w a => ValidChanges w (w.step zones maxConcurrentJobs a)) (World.new π) acts ∧
      Along (World.step zones maxConcurrentJobs) (CancelledStays zones maxConcurrentJobs)
        (World.new π) acts ∧
      OneExecution (reached zones maxConcurrentJobs acts) := by
  have hstep (w : World π) (a : Act π) (hs : Sound w) (hc : Careful w a) :
      Sound (w.step zones maxConcurrentJobs a) := (hs.step hc).1
  refine ⟨?_, ?_, ?_⟩
  · exact along_of_invariant (I := Sound) _ hstep (fun w a hs hc => (hs.step hc).2) sound_new h
  · exact along_of_invariant (I := Sound) _ hstep (fun w a hs hc => hs.cancelledStays hc)
      sound_new h
  · exact (invariant_along (I := Sound) _ hstep sound_new h).one

/-! ## Runs of one job -/

/-- One second behind the minute, an execution that fails, and a retry after a minute. -/
def failing : Env := ⟨61 * oneSecond, false, oneMinute, ["report"]⟩

/-- The same with an execution that succeeds. -/
def succeeding : Env := ⟨61 * oneSecond, true, oneMinute, ["report"]⟩

/-- `schedule_job`, undisturbed. -/
def scheduled : List (Act Unit) :=
  [.start 0 (.scheduleJob report) ⟨0, true, 0, []⟩, .resume 0 ⟨0, true, 0, []⟩]

/-- An execution fails and is to be tried again; the job is paused, resumed and cancelled. -/
def retriedAndCancelled : List (Act Unit) :=
  scheduled ++ .start 1 .processPendingJobs failing :: List.replicate 7 (.resume 1 failing) ++
    [.start 2 (.moveJob .pause "report") failing, .resume 2 failing,
      .start 3 (.moveJob .resume "report") failing, .resume 3 failing,
      .start 4 (.moveJob .cancel "report") failing, .resume 4 failing]

theorem status_changes_retriedAndCancelled :
    Along (World.step january 10)
        (fun w a => ValidChanges w (w.step january 10 a)) (World.new Unit) retriedAndCancelled ∧
      Along (World.step january 10) (CancelledStays january 10) (World.new Unit)
        retriedAndCancelled ∧
      OneExecution (reached january 10 retriedAndCancelled) :=
  status_changes january 10 (by decide +kernel)

/-- How a job is stored behind the steps. -/
def statusAfter (acts : List (Act Unit)) (id : String) : Option JobStatus :=
  ((reached january 10 acts).jobs.lookup id).map Job.status

/-- The job is triggered, up to its execution. -/
def inExecution (i : ℕ) : List (Act Unit) :=
  .start i (.triggerJob "report") succeeding :: List.replicate 2 (.resume i succeeding)

/-- The job is cancelled while it runs. -/
def cancelledMeanwhile : List (Act Unit) :=
  scheduled ++ inExecution 1 ++
    [.start 2 (.moveJob .cancel "report") succeeding, .resume 2 succeeding]

/-- A job that runs is paused; a job that is cancelled while it runs is completed; two triggers that
both read the job as scheduled execute it twice at a time. -/
theorem lost_updates :
    (statusAfter (scheduled ++ inExecution 1) "report" = some .running ∧
      statusAfter (scheduled ++ inExecution 1 ++
        [.start 2 (.moveJob .pause "report") succeeding, .resume 2 succeeding]) "report" =
          some .paused ∧
      JobStatus.running.canTransitionTo .paused = false) ∧
    (statusAfter cancelledMeanwhile "report" = some .cancelled ∧
      statusAfter (cancelledMeanwhile ++ List.replicate 2 (.resume 1 succeeding)) "report" =
        some .completed) ∧
    ¬ OneExecution (reached january 10
      (scheduled ++ [.start 1 (.triggerJob "report") succeeding,
        .start 2 (.triggerJob "report") succeeding, .resume 1 succeeding, .resume 2 succeeding])) := by
  refine ⟨by decide +kernel, by decide +kernel, fun hone => ?_⟩
  exact absurd (hone 1 2 _ rfl _ rfl "report" rfl rfl) (by decide)

end Backbone.Jobs
