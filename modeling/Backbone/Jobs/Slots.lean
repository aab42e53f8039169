import Backbone.Jobs.Transitions

/-!
# The slots of the executions

`execute_single_job` puts the id of its job into `active_jobs` and takes it out at its end. Each
call of the storage in between is followed by `?`, so that an error returns with the id still in the
set; and a job that is deleted after it was written as running, but before it is in the set, gives
such an error.

Here the storage may answer an error to any call, and may have done what it was called for all the
same; and `unschedule_job` deletes jobs. An execution has its slot from when its id is put in to
when it is taken out.

Reference: `backbone-jobs/src/scheduler.rs`.
-/

namespace Backbone.Jobs

open Machine

variable {π : Type} {c : Call π} {id : String}

/-! ## Calls of the storage -/

/-- What the storage answers; a call that fails may be applied. -/
inductive Answer where
  | ok
  | failed (applied : Bool)
deriving DecidableEq, Repr

namespace Call

/-- The jobs an execution is followed by. -/
def rest : Call π → List (Job π)
  | .scheduling _ | .updating _ _ | .writing _ | .moving _ _ _ | .listed _ => []
  | .starting _ rest | .activating _ rest | .executing _ rest | .finishing _ _ rest
  | .rescheduling _ rest | .retrying _ rest | .deactivating _ rest => rest

/-- The next step calls the storage. -/
def stores (zones : TimeZones) (env : Env) : Call π → Bool
  | .scheduling _ | .writing _ | .moving _ _ _ => true
  | .starting job _ => job.markAsRunning.isOk
  | .finishing copy true _ => (copy.markAsCompleted env.now).isOk
  | .finishing copy false _ => (copy.markAsFailed env.now).isOk
  | .rescheduling copy _ => (calculateNextRunTime zones copy env.now).isOk
  | .retrying copy _ => copy.canRetry && copy.resetForRetry.isOk
  | .updating _ _ | .listed _ | .activating _ _ | .executing _ _ | .deactivating _ _ => false

/-- The job that is executed, from when it is written as running. -/
def execution : Call π → Option String
  | .activating copy _ | .executing copy _ | .finishing copy _ _ | .rescheduling copy _
  | .retrying copy _ => some copy.id
  | .deactivating id _ => some id
  | _ => none

/-- The job whose slot the call has. -/
def slot : Call π → Option String
  | .activating _ _ => none
  | c => c.execution

/-- The job `execute_single_job` was called with. -/
def executes : Call π → Option String
  | .starting job _ => some job.id
  | c => c.execution

end Call

section Service

variable (zones : TimeZones) (maxConcurrentJobs : ℕ)

/-- The next step of an operation when its call of the storage fails: `?` leaves the operation, and
`process_pending_jobs` goes on to its next job. -/
def World.fail (w : World π) (i : ℕ) (env : Env) (applied : Bool) (c : Call π) : World π :=
  let jobs := if applied then (w.resume zones maxConcurrentJobs i env c).jobs else w.jobs
  { w with jobs := jobs }.goOn i c.rest

def World.resumeWith (w : World π) (i : ℕ) (env : Env) (c : Call π) : Answer → World π
  | .ok => w.resume zones maxConcurrentJobs i env c
  | .failed applied =>
    if c.stores zones env then w.fail zones maxConcurrentJobs i env applied c
    else w.resume zones maxConcurrentJobs i env c

/-- Where `unschedule_job` is: it has found the job, or has not found it among the active ones. -/
inductive Removal where
  | checking (id : String)
  | deleting (id : String)
deriving DecidableEq, Repr

/-- The scheduler with its calls of `unschedule_job`. -/
structure Service (π : Type) where
  world : World π
  removals : ℕ → Option Removal

inductive Event (π : Type) where
  | start (i : ℕ) (op : Operation π) (env : Env)
  | resume (i : ℕ) (env : Env) (answer : Answer)
  /-- `unschedule_job`, its first step and the others. -/
  | unschedule (i : ℕ) (id : String)
  | remove (i : ℕ) (answer : Answer)

namespace Service

def new (π : Type) : Service π := ⟨World.new π, fun _ => none⟩

def setRemoval (s : Service π) (i : ℕ) (r : Option Removal) : Service π :=
  { s with removals := Function.update s.removals i r }

/-- `JobStorage::delete_job`. -/
def delete (s : Service π) (id : String) : Answer → Service π
  | .ok | .failed true => { s with world := { s.world with jobs := s.world.jobs.erase id } }
  | .failed false => s

/-- What cannot happen leaves the service as it is. -/
def step (s : Service π) : Event π → Service π
  | .start i op env => { s with world := s.world.step zones maxConcurrentJobs (.start i op env) }
  | .resume i env answer =>
    match s.world.calls i with
    | none => s
    | some c => { s with world := s.world.resumeWith zones maxConcurrentJobs i env c answer }
  | .unschedule i id =>
    match s.removals i with
    | some _ => s
    | none => if id ∈ s.world.jobs then s.setRemoval i (some (.checking id)) else s
  | .remove i answer =>
    match s.removals i with
    | none => s
    | some (.checking id) =>
      if id ∈ s.world.activeJobs then s.setRemoval i none
      else s.setRemoval i (some (.deleting id))
    | some (.deleting id) => (s.delete id answer).setRemoval i none

end Service

end Service

/-- An operation whose calls of the storage are answered. -/
def Act.answered : Act π → Event π
  | .start i op env => .start i op env
  | .resume i env => .resume i env .ok

/-! ## Leaks -/

namespace World

/-- The job that call `i` executes. -/
def execution (w : World π) (i : ℕ) : Option String := (w.calls i).bind Call.execution

def slot (w : World π) (i : ℕ) : Option String := (w.calls i).bind Call.slot

/-- The job that call `i` has written as running, without its outcome. -/
def running (w : World π) (i : ℕ) : Option String := (w.calls i).bind Call.inProgress

end World

/-- The active jobs are those with an execution that has a slot, and a stored job runs only while it
is executed. -/
structure NoLeak (w : World π) : Prop where
  nodup : w.activeJobs.Nodup
  active : ∀ id, id ∈ w.activeJobs ↔ ∃ i, w.slot i = some id
  running : ∀ id, ∀ j ∈ w.jobs.lookup id, j.status = .running → ∃ i, w.running i = some id

/-- Call `i` returns from `execute_single_job`. -/
def Returns (w w' : World π) (i : ℕ) (id : String) : Prop :=
  w'.calls i ≠ w.calls i ∧ (w.calls i).bind Call.executes = some id ∧ w'.execution i ≠ some id

/-- What an execution leaves. -/
def Released (w w' : World π) : Prop :=
  ∀ i id, Returns w w' i id → id ∉ w'.activeJobs ∧ ∀ j ∈ w'.jobs.lookup id, j.status ≠ .running

/-- Executions of a job do not overlap, and callers do not hand over a job as running. -/
def Apart (s : Service π) : Event π → Prop
  | .start _ (.scheduleJob job) _ | .start _ (.updateJob job) _ => job.status ≠ .running
  | .resume i _ _ =>
    ∀ job rest, s.world.calls i = some (.starting job rest) → ∀ k, s.world.execution k ≠ some job.id
  | _ => True

/-- The storage answers to an execution once it is written as running, and does not write this when
it answers an error to it. -/
def Answered (zones : TimeZones) (s : Service π) : Event π → Prop
  | .resume i env answer => ∀ c ∈ s.world.calls i,
    (∀ job rest, c = .starting job rest → answer = .failed true → job.id ∉ s.world.jobs) ∧
    ∀ id ∈ c.execution, c.stores zones env = true → answer = .ok ∧ id ∈ s.world.jobs
  | _ => True

/-! ## Turns of a call -/

namespace Call

/-- The jobs of callers are not handed over as running. -/
def Handed : Call π → Prop
  | .scheduling job | .updating job _ | .writing job => job.status ≠ .running
  | _ => True

theorem execution_of_slot (h : c.slot = some id) : c.execution = some id := by
  cases c with
  | activating copy rest => cases h
  | _ => exact h

theorem slot_of_stores {zones : TimeZones} {env : Env} (h : c.execution = some id)
    (hstores : c.stores zones env = true) : c.slot = some id := by
  cases c with
  | activating copy rest => cases hstores
  | _ => exact h

theorem execution_of_executes (h : c.executes = some id) :
    c.execution = some id ∨ ∃ job rest, c = .starting job rest ∧ job.id = id := by
  cases c with
  | starting job rest => exact .inr ⟨job, rest, rfl, Option.some.inj h⟩
  | _ => exact .inl h

theorem execution_of_inProgress (h : c.inProgress = some id) : c.execution = some id := by
  cases c with
  | activating | executing | finishing => exact h
  | scheduling | updating | writing | moving | listed | starting | rescheduling | retrying
  | deactivating => cases h

theorem bind_slot_eq_none {c : Option (Call π)} (h : c.bind Call.execution = none) :
    c.bind Call.slot = none := by
  refine Option.eq_none_iff_forall_ne_some.mpr fun id hid => ?_
  obtain ⟨d, hd, hslot⟩ := Option.bind_eq_some_iff.mp hid
  rw [Option.bind_eq_some_iff.mpr ⟨d, hd, execution_of_slot hslot⟩] at h
  cases h

end Call

namespace World

variable {w : World π} {i : ℕ} {id : String}

theorem execution_of_slot (h : w.slot i = some id) : w.execution i = some id := by
  obtain ⟨c, hc, hslot⟩ := Option.bind_eq_some_iff.mp h
  exact Option.bind_eq_some_iff.mpr ⟨c, hc, Call.execution_of_slot hslot⟩

theorem execution_of_running (h : w.running i = some id) : w.execution i = some id := by
  obtain ⟨c, hc, hrunning⟩ := Option.bind_eq_some_iff.mp h
  exact Option.bind_eq_some_iff.mpr ⟨c, hc, Call.execution_of_inProgress hrunning⟩

end World

/-- No slot leaks, each call is where its copies say, and each job is executed once at a time. -/
structure Clean (w : World π) : Prop extends NoLeak w where
  calls : ∀ i, ∀ c ∈ w.calls i, c.Local ∧ c.Handed
  once : ∀ i k id, w.execution i = some id → w.execution k = some id → i = k

theorem clean_new : Clean (World.new π) where
  nodup := List.nodup_nil
  active id := iff_of_false (fun h => by cases h) (fun ⟨i, h⟩ => by cases h)
  running id j hj := by cases hj
  calls i c hc := by cases hc
  once i k id h := by cases h

/-- What a step of call `i` does to slots and to running jobs. -/
structure Turn (w : World π) (i : ℕ) (w' : World π) : Prop where
  others : ∀ k, k ≠ i → w'.calls k = w.calls k
  calls : ∀ c ∈ w'.calls i, c.Local ∧ c.Handed
  once : ∀ id, w'.execution i = some id → w.execution i = some id ∨ ∀ k, w.execution k ≠ some id
  nodup : w'.activeJobs.Nodup
  active : ∀ id, id ∈ w'.activeJobs ↔ w'.slot i = some id ∨ (id ∈ w.activeJobs ∧ w.slot i ≠ some id)
  running : ∀ id, ∀ j ∈ w'.jobs.lookup id, j.status = .running → w'.running i = some id ∨
    (w.running i ≠ some id ∧ ∃ j ∈ w.jobs.lookup id, j.status = .running)

section Turn

variable {w w' : World π} {i : ℕ} {job : Job π} {k : ℕ}

theorem Turn.execution_of_ne (h : Turn w i w') (hk : k ≠ i) : w'.execution k = w.execution k := by
  rw [World.execution, h.others k hk]
  rfl

theorem Turn.slot_of_ne (h : Turn w i w') (hk : k ≠ i) : w'.slot k = w.slot k := by
  rw [World.slot, h.others k hk]
  rfl

theorem Turn.running_of_ne (h : Turn w i w') (hk : k ≠ i) : w'.running k = w.running k := by
  rw [World.running, h.others k hk]
  rfl

theorem Clean.turn (hs : Clean w) (h : Turn w i w') : Clean w' where
  nodup := h.nodup
  active id := by
    rw [h.active id, hs.active id]
    constructor
    · rintro (hslot | ⟨⟨k, hk⟩, hne⟩)
      · exact ⟨i, hslot⟩
      · have hki : k ≠ i := by
          rintro rfl
          exact hne hk
        exact ⟨k, by rw [h.slot_of_ne hki, hk]⟩
    · rintro ⟨k, hk⟩
      by_cases hki : k = i
      · subst hki
        exact .inl hk
      · rw [h.slot_of_ne hki] at hk
        refine .inr ⟨⟨k, hk⟩, fun hi => hki ?_⟩
        exact hs.once k i id (World.execution_of_slot hk) (World.execution_of_slot hi)
  running id j hj hrunning := by
    rcases h.running id j hj hrunning with hi | ⟨hne, j₀, hj₀, hrunning₀⟩
    · exact ⟨i, hi⟩
    · obtain ⟨k, hk⟩ := hs.running id j₀ hj₀ hrunning₀
      have hki : k ≠ i := by
        rintro rfl
        exact hne hk
      exact ⟨k, by rw [h.running_of_ne hki, hk]⟩
  calls k c hc := by
    by_cases hki : k = i
    · subst hki
      exact h.calls c hc
    · rw [h.others k hki] at hc
      exact hs.calls k c hc
  once := by
    -- A call other than `i` that executes the job did so before.
    have hother {k : ℕ} {id : String} (hi : w'.execution i = some id)
        (hk : w'.execution k = some id) : i = k := by
      by_contra hne
      rw [h.execution_of_ne (Ne.symm hne)] at hk
      rcases h.once id hi with hi | hfree
      · exact hne (hs.once i k id hi hk)
      · exact hfree k hk
    intro k k' id hk hk'
    by_cases hki : k = i
    · subst hki
      exact hother hk hk'
    · by_cases hki' : k' = i
      · subst hki'
        exact (hother hk' hk).symm
      · rw [h.execution_of_ne hki] at hk
        rw [h.execution_of_ne hki'] at hk'
        exact hs.once k k' id hk hk'

/-- A clean turn at whose end an execution has returned. -/
theorem Clean.released (hs : Clean w) (h : Turn w i w')
    (hapart : ∀ job rest, w.calls i = some (.starting job rest) → ∀ k, w.execution k ≠ some job.id) :
    Released w w' := by
  have hs' := hs.turn h
  intro k id ⟨hmoved, hexecutes, hreturned⟩
  have hki : k = i := by
    by_contra hki
    exact hmoved (h.others k hki)
  subst hki
  -- No other call executes the job.
  have hfree : ∀ l, w'.execution l ≠ some id := by
    intro l hl
    have hlk : l ≠ k := by
      rintro rfl
      exact hreturned hl
    rw [h.execution_of_ne hlk] at hl
    obtain ⟨c, hc, hid⟩ := Option.bind_eq_some_iff.mp hexecutes
    rcases Call.execution_of_executes hid with hexecution | ⟨job, rest, rfl, rfl⟩
    · exact hlk (hs.once l k id hl (Option.bind_eq_some_iff.mpr ⟨c, hc, hexecution⟩))
    · exact hapart job rest hc l hl
  constructor
  · intro hactive
    obtain ⟨l, hl⟩ := (hs'.active id).mp hactive
    exact hfree l (World.execution_of_slot hl)
  · intro j hj hrunning
    obtain ⟨l, hl⟩ := hs'.running id j hj hrunning
    exact hfree l (World.execution_of_running hl)

/-- A stored job that runs was so before, when what is written does not run. -/
theorem running_of_insert {jobs : Storage π} (hjob : job.status ≠ .running)
    {j : Job π} (hj : j ∈ (jobs.insert job.id job).lookup id) (hrunning : j.status = .running) :
    id ≠ job.id ∧ ∃ j ∈ jobs.lookup id, j.status = .running := by
  by_cases hid : id = job.id
  · subst hid
    rw [AList.lookup_insert] at hj
    cases hj
    exact absurd hrunning hjob
  · rw [AList.lookup_insert_ne hid] at hj
    exact ⟨hid, j, hj, hrunning⟩

variable {jobs : Storage π} {active : List String} {c' : Option (Call π)}
  {rest : List (Job π)} {d : Call π}

section

variable (hs : Clean w) (hcalls : ∀ c ∈ c', c.Local ∧ c.Handed)
  (honce : ∀ id, c'.bind Call.execution = some id →
    w.execution i = some id ∨ ∀ k, w.execution k ≠ some id)
include hcalls honce

theorem Turn.of_update (hnodup : active.Nodup)
    (hactive : ∀ id, id ∈ active ↔
      c'.bind Call.slot = some id ∨ (id ∈ w.activeJobs ∧ w.slot i ≠ some id))
    (hrunning : ∀ id, ∀ j ∈ jobs.lookup id, j.status = .running → c'.bind Call.inProgress = some id ∨
      (w.running i ≠ some id ∧ ∃ j ∈ w.jobs.lookup id, j.status = .running)) :
    Turn w i ⟨jobs, active, Function.update w.calls i c'⟩ where
  others k hk := Function.update_of_ne hk _ _
  calls c hc := hcalls c (by simpa using hc)
  once id h := honce id (by simpa [World.execution] using h)
  nodup := hnodup
  active id := by simpa [World.slot] using hactive id
  running id j hj h := by simpa [World.running] using hrunning id j hj h

include hs in
/-- The active jobs stay when the slot of the call does. -/
theorem Turn.of_slot (hslot : c'.bind Call.slot = w.slot i)
    (hrunning : ∀ id, ∀ j ∈ jobs.lookup id, j.status = .running → c'.bind Call.inProgress = some id ∨
      (w.running i ≠ some id ∧ ∃ j ∈ w.jobs.lookup id, j.status = .running)) :
    Turn w i ⟨jobs, w.activeJobs, Function.update w.calls i c'⟩ := by
  refine .of_update hcalls honce hs.nodup (fun id => ?_) hrunning
  rw [hslot]
  constructor
  · intro hid
    exact or_iff_not_imp_left.mpr fun hne => ⟨hid, hne⟩
  · rintro (hown | ⟨hid, -⟩)
    · exact (hs.active id).mpr ⟨i, hown⟩
    · exact hid

end

/-- A call that executes no job, before and after its step. -/
theorem Turn.idle (hs : Clean w) (hcalls : ∀ c ∈ c', c.Local ∧ c.Handed)
    (hbefore : w.execution i = none) (hafter : c'.bind Call.execution = none)
    (hrunning : ∀ id, ∀ j ∈ jobs.lookup id, j.status = .running →
      ∃ j ∈ w.jobs.lookup id, j.status = .running) :
    Turn w i ⟨jobs, w.activeJobs, Function.update w.calls i c'⟩ := by
  refine .of_slot hs hcalls (fun id h => ?_) ?_
    fun id j hj h => .inr ⟨fun hid => ?_, hrunning id j hj h⟩
  · rw [hafter] at h
    cases h
  · rw [Call.bind_slot_eq_none hafter]
    exact (Call.bind_slot_eq_none hbefore).symm
  · rw [World.execution_of_running hid] at hbefore
    cases hbefore

section GoOn

variable (w : World π) (i : ℕ) (rest : List (Job π))

theorem goOn_jobs : (w.goOn i rest).jobs = w.jobs := by
  cases rest with
  | nil => rfl
  | cons job rest => rfl

theorem goOn_activeJobs : (w.goOn i rest).activeJobs = w.activeJobs := by
  cases rest with
  | nil => rfl
  | cons job rest => rfl

theorem goOn_calls_of_ne {k : ℕ} (hk : k ≠ i) : (w.goOn i rest).calls k = w.calls k := by
  cases rest with
  | nil => exact Function.update_of_ne hk _ _
  | cons job rest => exact Function.update_of_ne hk _ _

/-- An operation that goes on executes no job yet. -/
theorem execution_goOn : (w.goOn i rest).execution i = none := by
  cases rest with
  | nil => simp [World.execution, World.goOn, World.setCall]
  | cons job rest => simp [World.execution, World.goOn, World.setCall, Call.execution]

theorem running_goOn : (w.goOn i rest).running i = none := by
  refine Option.eq_none_iff_forall_ne_some.mpr fun id h => ?_
  have hexecution := World.execution_of_running h
  rw [execution_goOn] at hexecution
  cases hexecution

end GoOn

/-- What an operation goes on with does not depend on the world. -/
theorem goOn_eq (hrest : AllScheduled rest) : ∃ c' : Option (Call π),
    (∀ w : World π, w.goOn i rest = w.setCall i c') ∧ c'.bind Call.execution = none ∧
      ∀ c ∈ c', c.Local ∧ c.Handed := by
  cases rest with
  | nil => exact ⟨none, fun _ => rfl, rfl, fun c hc => by cases hc⟩
  | cons job rest =>
    refine ⟨some (.starting job rest), fun _ => rfl, rfl, fun c hc => ?_⟩
    cases hc
    exact ⟨⟨hrest job List.mem_cons_self, fun k hk => hrest k (List.mem_cons_of_mem _ hk)⟩, trivial⟩

/-- An operation that executes no job goes on to its next one. -/
theorem Turn.goOn (hs : Clean w) (hbefore : w.execution i = none)
    (hrest : AllScheduled rest)
    (hrunning : ∀ id, ∀ j ∈ jobs.lookup id, j.status = .running →
      ∃ j ∈ w.jobs.lookup id, j.status = .running) :
    Turn w i ({ w with jobs := jobs }.goOn i rest) := by
  obtain ⟨c', heq, hc', hcalls⟩ := goOn_eq hrest
  rw [heq]
  exact .idle hs hcalls hbefore hc' hrunning

/-- A write of the storage by a call that executes no job. -/
theorem Turn.update (hs : Clean w) (hbefore : w.execution i = none)
    (hjob : job.status ≠ .running) : Turn w i (w.update i job [] fun w => w.setCall i none) := by
  unfold World.update
  split
  · next jobs hjobs =>
    obtain ⟨-, rfl⟩ := Storage.updateJob_eq_ok.mp hjobs
    exact .idle hs (fun c hc => by cases hc) hbefore rfl
      fun id j hj h => (running_of_insert hjob hj h).2
  · exact .idle hs (fun c hc => by cases hc) hbefore rfl fun id j hj h => ⟨j, hj, h⟩

/-- A write that follows the execution, which has its slot still. -/
theorem Turn.writes (hs : Clean w) (hi : w.calls i = some c)
    (hcalls : d.Local ∧ d.Handed) (hjob : job.status ≠ .running)
    (hslot : c.slot = some job.id) (hslot' : d.slot = some job.id) (hstored : job.id ∈ w.jobs)
    (rest : List (Job π)) : Turn w i (w.update i job rest fun w => w.setCall i (some d)) := by
  unfold World.update
  rw [Storage.updateJob_eq_ok.mpr ⟨hstored, rfl⟩]
  refine .of_slot hs (fun d' hd' => ?_) (fun id h => .inl ?_) ?_ fun id j hj h => .inr ?_
  · cases hd'
    exact hcalls
  · rw [World.execution, hi]
    rw [Option.bind_some, Call.execution_of_slot hslot'] at h
    rw [Option.bind_some, Call.execution_of_slot hslot, h]
  · rw [World.slot, hi, Option.bind_some, Option.bind_some, hslot, hslot']
  · obtain ⟨hne, hbefore⟩ := running_of_insert hjob hj h
    refine ⟨fun hrunning => hne ?_, hbefore⟩
    have hown := World.execution_of_running hrunning
    rw [World.execution, hi, Option.bind_some, Call.execution_of_slot hslot] at hown
    exact (Option.some.inj hown).symm

/-- A step of an execution without a write. -/
theorem Turn.quiet (hs : Clean w) (hi : w.calls i = some c)
    (hcalls : d.Local ∧ d.Handed) (hslot : d.slot = c.slot) (hexecution : d.execution = c.execution)
    (hrunning : d.inProgress = c.inProgress) : Turn w i (w.setCall i (some d)) := by
  refine .of_slot hs (fun d' hd' => ?_) (fun id h => .inl ?_) ?_ fun id j hj h => ?_
  · cases hd'
    exact hcalls
  · rw [World.execution, hi, Option.bind_some, ← hexecution]
    exact h
  · rw [World.slot, hi, Option.bind_some, Option.bind_some, hslot]
  · rw [World.running, hi, Option.bind_some, Option.bind_some, hrunning]
    exact or_iff_not_imp_left.mpr fun hne => ⟨hne, j, hj, h⟩

end Turn

section Steps

variable {zones : TimeZones} {maxConcurrentJobs : ℕ} {w : World π} {i : ℕ} {env : Env}
  {rest : List (Job π)} {copy : Job π} {op : Operation π}

theorem Move.status_ne_running {now : ℤ} {m : Move} {read job : Job π}
    (h : m.apply zones now read = .ok job) : job.status ≠ .running := by
  cases m with
  | pause =>
    obtain ⟨-, rfl⟩ := Job.pause_eq_ok.mp h
    exact fun heq => by cases heq
  | cancel =>
    obtain ⟨-, rfl⟩ := Job.cancel_eq_ok.mp h
    exact fun heq => by cases heq
  | resume =>
    obtain ⟨resumed, hresumed, h⟩ := bind_eq_ok.mp h
    obtain ⟨next, -, h⟩ := bind_eq_ok.mp h
    obtain ⟨-, rfl⟩ := Job.resume_eq_ok.mp hresumed
    cases h
    exact fun heq => by cases heq

/-- An operation that starts executes no job yet. -/
theorem start_eq (hhanded : ∀ job, op = .scheduleJob job ∨ op = .updateJob job →
      job.status ≠ .running) :
    w.start zones i env op = w ∨ ∃ c, w.start zones i env op = w.setCall i (some c) ∧
      c.execution = none ∧ c.Local ∧ c.Handed := by
  cases op with
  | scheduleJob job =>
    simp only [World.start]
    split
    · exact .inr ⟨_, rfl, rfl, trivial, hhanded job (.inl rfl)⟩
    · exact .inl rfl
  | updateJob job =>
    simp only [World.start]
    split
    · exact .inr ⟨_, rfl, rfl, trivial, hhanded job (.inr rfl)⟩
    · exact .inl rfl
  | moveJob m id =>
    simp only [World.start]
    split
    · exact .inl rfl
    · split
      · next job hjob => exact .inr ⟨_, rfl, rfl, ⟨zones, env.now, hjob⟩, trivial⟩
      · exact .inl rfl
  | triggerJob id =>
    simp only [World.start]
    split
    · exact .inl rfl
    · next job hjob =>
      split
      · next hscheduled =>
        refine .inr ⟨_, rfl, rfl, ⟨by simpa [Job.isScheduled] using hscheduled, ?_⟩, trivial⟩
        intro job hjob
        cases hjob
      · exact .inl rfl
  | processPendingJobs =>
    simp only [World.start]
    split
    · refine .inr ⟨_, rfl, rfl, fun job hjob => ?_, trivial⟩
      exact Storage.isScheduled_of_mem_getPendingJobs hjob
    · exact .inl rfl

section

variable (hs : Clean w)
include hs

/-- `execute_single_job` writes that the job runs. -/
theorem Turn.starts {job : Job π} (hi : w.calls i = some (.starting job rest))
    (hapart : ∀ k, w.execution k ≠ some job.id) :
    Turn w i (w.resume zones maxConcurrentJobs i env (.starting job rest)) := by
  obtain ⟨hscheduled, hrest⟩ := (hs.calls i _ hi).1
  have hexecution : w.execution i = none := by
    rw [World.execution, hi]
    rfl
  simp only [World.resume, Job.markAsRunning_eq_ok.mpr ⟨hscheduled, rfl⟩]
  unfold World.update
  split
  · next jobs hjobs =>
    obtain ⟨-, rfl⟩ := Storage.updateJob_eq_ok.mp hjobs
    refine .of_slot hs (fun c hc => ?_) (fun id h => .inr ?_) ?_ fun id j hj h => ?_
    · cases hc
      exact ⟨⟨rfl, hrest⟩, trivial⟩
    · cases h
      exact hapart
    · rw [World.slot, hi]
      rfl
    · by_cases hid : id = job.id
      · exact .inl (by rw [hid]; rfl)
      · rw [AList.lookup_insert_ne hid] at hj
        refine .inr ⟨fun hrunning => ?_, j, hj, h⟩
        rw [World.execution_of_running hrunning] at hexecution
        cases hexecution
  · exact .goOn hs hexecution hrest fun id j hj h => ⟨j, hj, h⟩

/-- It takes its slot. -/
theorem Turn.activates (hi : w.calls i = some (.activating copy rest)) :
    Turn w i (w.resume zones maxConcurrentJobs i env (.activating copy rest)) := by
  refine .of_update (fun c hc => ?_) (fun id h => .inl ?_) hs.nodup.insert (fun id => ?_)
    fun id j hj h => ?_
  · cases hc
    exact ⟨(hs.calls i _ hi).1, trivial⟩
  · rw [World.execution, hi]
    exact h
  · rw [List.mem_insert_iff, World.slot, hi, eq_comm]
    simp [Call.slot, Call.execution]
  · rw [World.running, hi]
    exact or_iff_not_imp_left.mpr fun hne => ⟨hne, j, hj, h⟩

/-- It writes how the execution ended. -/
theorem Turn.finishes {succeeded : Bool}
    (hi : w.calls i = some (.finishing copy succeeded rest))
    (hstored : Call.stores zones env (.finishing copy succeeded rest) = true → copy.id ∈ w.jobs) :
    Turn w i (w.resume zones maxConcurrentJobs i env (.finishing copy succeeded rest)) := by
  obtain ⟨hrunning, hrest⟩ := (hs.calls i _ hi).1
  cases succeeded with
  | true =>
    obtain ⟨written, hwritten⟩ : ∃ written, copy.markAsCompleted env.now = .ok written :=
      ⟨_, Job.markAsCompleted_eq_ok.mpr ⟨hrunning, rfl⟩⟩
    obtain ⟨-, rfl⟩ := Job.markAsCompleted_eq_ok.mp hwritten
    simp only [World.resume, hwritten]
    refine .writes hs hi ?_ ?_ ?_ ?_ ?_ rest
    · exact ⟨⟨rfl, hrest⟩, trivial⟩
    · exact fun h => by cases h
    · rfl
    · rfl
    · exact hstored (by rw [Call.stores, hwritten]; rfl)
  | false =>
    obtain ⟨written, hwritten⟩ : ∃ written, copy.markAsFailed env.now = .ok written :=
      ⟨_, Job.markAsFailed_eq_ok.mpr ⟨hrunning, rfl⟩⟩
    obtain ⟨-, rfl⟩ := Job.markAsFailed_eq_ok.mp hwritten
    simp only [World.resume, hwritten]
    refine .writes hs hi ?_ ?_ ?_ ?_ ?_ rest
    · exact ⟨⟨rfl, hrest⟩, trivial⟩
    · exact fun h => by cases h
    · rfl
    · rfl
    · exact hstored (by rw [Call.stores, hwritten]; rfl)

/-- A completed job gets its next time. -/
theorem Turn.reschedules (hi : w.calls i = some (.rescheduling copy rest))
    (hstored : Call.stores zones env (.rescheduling copy rest) = true → copy.id ∈ w.jobs) :
    Turn w i (w.resume zones maxConcurrentJobs i env (.rescheduling copy rest)) := by
  obtain ⟨hcompleted, hrest⟩ := (hs.calls i _ hi).1
  simp only [World.resume]
  split
  · next next hnext =>
    refine .writes hs hi ?_ ?_ ?_ ?_ ?_ rest
    · exact ⟨hrest, trivial⟩
    · show copy.status ≠ .running
      rw [hcompleted]
      exact fun h => by cases h
    · rfl
    · rfl
    · exact hstored (by rw [Call.stores, hnext]; rfl)
  · exact .quiet hs hi ⟨hrest, trivial⟩ rfl rfl rfl

/-- A failed job is to be tried again. -/
theorem Turn.retries (hi : w.calls i = some (.retrying copy rest))
    (hstored : Call.stores zones env (.retrying copy rest) = true → copy.id ∈ w.jobs) :
    Turn w i (w.resume zones maxConcurrentJobs i env (.retrying copy rest)) := by
  obtain ⟨hfailed, hrest⟩ := (hs.calls i _ hi).1
  have hreset (next : Option ℤ) : { copy with nextRunTime := next }.resetForRetry =
      .ok { copy with nextRunTime := next, status := .scheduled } :=
    Job.resetForRetry_eq_ok.mpr ⟨.inl hfailed, rfl⟩
  simp only [World.resume]
  split
  · next hretry =>
    simp only [hreset]
    refine .writes hs hi ?_ ?_ ?_ ?_ ?_ rest
    · exact ⟨hrest, trivial⟩
    · exact fun h => by cases h
    · rfl
    · rfl
    · exact hstored (by rw [Call.stores, hretry, hreset copy.nextRunTime]; rfl)
  · exact .quiet hs hi ⟨hrest, trivial⟩ rfl rfl rfl

/-- It gives its slot back. -/
theorem Turn.deactivates (hi : w.calls i = some (.deactivating id rest)) :
    Turn w i (w.resume zones maxConcurrentJobs i env (.deactivating id rest)) := by
  obtain ⟨c', heq, hc', hcalls⟩ := goOn_eq (hs.calls i _ hi).1
  simp only [World.resume]
  rw [heq]
  refine .of_update hcalls (fun id' h => ?_) (hs.nodup.filter _) (fun id' => ?_) fun id' j hj h => ?_
  · rw [hc'] at h
    cases h
  · rw [List.mem_filter, Call.bind_slot_eq_none hc', World.slot, hi, decide_eq_true_iff]
    simp [Call.slot, Call.execution, eq_comm]
  · refine .inr ⟨fun hrunning => ?_, j, hj, h⟩
    rw [World.running, hi] at hrunning
    cases hrunning

/-- A step is a clean turn, if an execution that starts is the only one of its job and the storage
does what it writes later. -/
theorem turn_resume (hi : w.calls i = some c)
    (hapart : ∀ job rest, c = .starting job rest → ∀ k, w.execution k ≠ some job.id)
    (hstored : ∀ id ∈ c.execution, c.stores zones env = true → id ∈ w.jobs) :
    Turn w i (w.resume zones maxConcurrentJobs i env c) := by
  have hlocal := (hs.calls i c hi).1
  have hhanded := (hs.calls i c hi).2
  have hexecution : w.execution i = c.execution := by rw [World.execution, hi, Option.bind_some]
  cases c with
  | scheduling job =>
    simp only [World.resume]
    split
    · next jobs hjobs =>
      obtain ⟨-, rfl⟩ := Storage.createJob_eq_ok.mp hjobs
      exact .idle hs (fun c hc => by cases hc) hexecution rfl
        fun id j hj h => (running_of_insert hhanded hj h).2
    · exact .idle hs (fun c hc => by cases hc) hexecution rfl fun id j hj h => ⟨j, hj, h⟩
  | updating job existing =>
    have hwriting (written : Job π) (hwritten : written.status ≠ .running) :
        Turn w i (w.setCall i (some (.writing written))) := by
      refine .idle hs (fun c hc => ?_) hexecution rfl fun id j hj h => ⟨j, hj, h⟩
      cases hc
      exact ⟨trivial, hwritten⟩
    have hdone : Turn w i (w.setCall i none) :=
      .idle hs (fun c hc => by cases hc) hexecution rfl fun id j hj h => ⟨j, hj, h⟩
    simp only [World.resume]
    split
    · exact hdone
    · split
      · exact hwriting job hhanded
      · split
        · exact hwriting _ hhanded
        · exact hdone
  | writing job => exact .update hs hexecution hhanded
  | moving m read job =>
    obtain ⟨zones, now, hjob⟩ := hlocal
    exact .update hs hexecution (Move.status_ne_running hjob)
  | listed pending =>
    refine .goOn hs hexecution (fun job hjob => ?_) fun id j hj h => ⟨j, hj, h⟩
    exact hlocal job (List.mem_of_mem_take hjob)
  | starting job rest => exact .starts hs hi (hapart job rest rfl)
  | activating copy rest => exact .activates hs hi
  | executing copy rest => exact .quiet hs hi ⟨hlocal, trivial⟩ rfl rfl rfl
  | finishing copy succeeded rest => exact .finishes hs hi (hstored copy.id rfl)
  | rescheduling copy rest => exact .reschedules hs hi (hstored copy.id rfl)
  | retrying copy rest => exact .retries hs hi (hstored copy.id rfl)
  | deactivating id rest => exact .deactivates hs hi

end

/-- After a write that is not of an execution, or that the storage does not do, nothing runs. -/
theorem running_resume (hexecution : c.execution = none) (hstores : c.stores zones env = true)
    (hstarting : ∀ job rest, c = .starting job rest → job.id ∉ w.jobs) :
    (w.resume zones maxConcurrentJobs i env c).running i = none := by
  have hupdate (job : Job π) : (w.update i job [] fun w => w.setCall i none).running i = none := by
    unfold World.update
    split
    · simp [World.running, World.setCall]
    · exact running_goOn w i []
  cases c with
  | scheduling job =>
    simp only [World.resume]
    split
    · simp [World.running, World.setCall]
    · simp [World.running, World.setCall]
  | writing job => exact hupdate job
  | moving m read job => exact hupdate job
  | starting job rest =>
    simp only [World.resume]
    split
    · next copy hcopy =>
      obtain ⟨-, rfl⟩ := Job.markAsRunning_eq_ok.mp hcopy
      unfold World.update Storage.updateJob
      rw [if_neg (hstarting job rest rfl)]
      exact running_goOn w i rest
    · exact running_goOn w i rest
  | updating | listed => cases hstores
  | activating | executing | finishing | rescheduling | retrying | deactivating => cases hexecution

/-- A call of the storage that fails leaves no slot and no running job, if it is not of an execution
that is written as running. -/
theorem turn_fail (hs : Clean w) (hi : w.calls i = some c) {applied : Bool}
    (hstores : c.stores zones env = true) (hexecution : c.execution = none)
    (hapart : ∀ job rest, c = .starting job rest → ∀ k, w.execution k ≠ some job.id)
    (hstarting : ∀ job rest, c = .starting job rest → applied = true → job.id ∉ w.jobs) :
    Turn w i (w.fail zones maxConcurrentJobs i env applied c) := by
  have hrest : AllScheduled c.rest := by
    have hlocal := (hs.calls i c hi).1
    cases c with
    | starting job rest => exact hlocal.2
    | scheduling | updating | writing | moving | listed => exact fun job hjob => by cases hjob
    | activating | executing | finishing | rescheduling | retrying | deactivating => cases hexecution
  have hnone : ∀ id ∈ c.execution, c.stores zones env = true → id ∈ w.jobs := by
    intro id hid
    rw [hexecution] at hid
    cases hid
  have hturn : Turn w i (w.resume zones maxConcurrentJobs i env c) := turn_resume hs hi hapart hnone
  unfold World.fail
  refine .goOn hs (by rw [World.execution, hi]; exact hexecution) hrest fun id j hj h => ?_
  cases applied with
  | false => exact ⟨j, hj, h⟩
  | true =>
    rcases hturn.running id j hj h with hrunning | ⟨-, hbefore⟩
    · rw [running_resume hexecution hstores fun job rest hc => hstarting job rest hc rfl] at hrunning
      cases hrunning
    · exact hbefore

/-- An execution that has its slot and goes on with the next job leaks the slot. -/
theorem leaks (hs : Clean w) (hslot : w.slot i = some id) (jobs : Storage π) (rest : List (Job π)) :
    ¬NoLeak ({ w with jobs := jobs }.goOn i rest) := by
  intro h
  have hactive : id ∈ ({ w with jobs := jobs }.goOn i rest).activeJobs := by
    rw [goOn_activeJobs]
    exact (hs.active id).mpr ⟨i, hslot⟩
  obtain ⟨k, hk⟩ := (h.active id).mp hactive
  have hexecution := World.execution_of_slot hk
  by_cases hki : k = i
  · rw [hki, execution_goOn] at hexecution
    cases hexecution
  · rw [World.execution, goOn_calls_of_ne _ _ _ hki] at hexecution
    exact hki (hs.once k i id hexecution (World.execution_of_slot hslot))

/-- A write of an execution that the storage does not find ends it. -/
theorem resume_of_not_stored (hexecution : c.execution = some id)
    (hstores : c.stores zones env = true) (hid : id ∉ w.jobs) :
    w.resume zones maxConcurrentJobs i env c = w.goOn i c.rest := by
  have hupdate {job : Job π} (hjob : job.id = id) (rest : List (Job π)) (next : World π → World π) :
      w.update i job rest next = w.goOn i rest := by
    unfold World.update Storage.updateJob
    rw [if_neg (by rwa [hjob])]
  cases c with
  | finishing copy succeeded rest =>
    cases succeeded with
    | true =>
      simp only [World.resume]
      split
      · next written hwritten =>
        obtain ⟨-, rfl⟩ := Job.markAsCompleted_eq_ok.mp hwritten
        apply hupdate
        exact Option.some.inj hexecution
      · rfl
    | false =>
      simp only [World.resume]
      split
      · next written hwritten =>
        obtain ⟨-, rfl⟩ := Job.markAsFailed_eq_ok.mp hwritten
        apply hupdate
        exact Option.some.inj hexecution
      · rfl
  | rescheduling copy rest =>
    simp only [World.resume]
    split
    · apply hupdate
      exact Option.some.inj hexecution
    · next error hnext =>
      rw [Call.stores, hnext] at hstores
      cases hstores
  | retrying copy rest =>
    simp only [World.resume]
    split
    · split
      · next written hwritten =>
        obtain ⟨-, rfl⟩ := Job.resetForRetry_eq_ok.mp hwritten
        apply hupdate
        exact Option.some.inj hexecution
      · rfl
    · next hretry =>
      exact absurd (Bool.and_eq_true_iff.mp hstores).1 hretry
  | activating | executing | deactivating => cases hstores
  | scheduling | updating | writing | moving | listed | starting => cases hexecution

/-! ## Steps of the service -/

/-- A deletion leaves no running job. -/
theorem Clean.delete (hs : Clean w) (id : String) : Clean { w with jobs := w.jobs.erase id } where
  nodup := hs.nodup
  active := hs.active
  calls := hs.calls
  once := hs.once
  running id' j hj h := by
    by_cases hid : id' = id
    · subst hid
      rw [show (_ : World π).jobs = w.jobs.erase id' from rfl, AList.lookup_erase] at hj
      cases hj
    · refine hs.running id' j ?_ h
      rwa [← AList.lookup_erase_ne hid]

/-- A step that moves no call. -/
theorem released_of_calls_eq {w w' : World π} (h : w'.calls = w.calls) : Released w w' := by
  intro i id hreturns
  exact absurd (congrFun h i) hreturns.1

variable {s : Service π} {e : Event π}

/-- What the storage may answer to a call. -/
theorem turn_resumeWith (hs : Clean w) (hi : w.calls i = some c) {answer : Answer}
    (hapart : ∀ job rest, c = .starting job rest → ∀ k, w.execution k ≠ some job.id)
    (hstarting : ∀ job rest, c = .starting job rest → answer = .failed true → job.id ∉ w.jobs)
    (hanswered : ∀ id ∈ c.execution, c.stores zones env = true → answer = .ok ∧ id ∈ w.jobs) :
    Turn w i (w.resumeWith zones maxConcurrentJobs i env c answer) := by
  have hresume : Turn w i (w.resume zones maxConcurrentJobs i env c) :=
    turn_resume hs hi hapart fun id hid hstores => (hanswered id hid hstores).2
  cases answer with
  | ok => exact hresume
  | failed applied =>
    simp only [World.resumeWith]
    split
    · next hstores =>
      refine turn_fail hs hi hstores ?_ hapart fun job rest hc happlied =>
        hstarting job rest hc (by rw [happlied])
      -- An execution that is written as running is answered.
      refine Option.eq_none_iff_forall_ne_some.mpr fun id hid => ?_
      cases (hanswered id hid hstores).1
    · exact hresume

/-- An operation starts, or is refused. -/
theorem clean_start (hs : Clean w) (hi : w.calls i = none)
    (hhanded : ∀ job, op = .scheduleJob job ∨ op = .updateJob job → job.status ≠ .running) :
    Clean (w.start zones i env op) ∧ Released w (w.start zones i env op) := by
  have hstart : w.start zones i env op = w ∨ ∃ c, w.start zones i env op = w.setCall i (some c) ∧
      c.execution = none ∧ c.Local ∧ c.Handed := start_eq hhanded
  rcases hstart with heq | ⟨c, heq, hexecution, hcalls⟩
  · rw [heq]
    exact ⟨hs, released_of_calls_eq rfl⟩
  · have hturn : Turn w i (w.setCall i (some c)) := by
      refine .idle hs (fun d hd => ?_) ?_ hexecution fun id j hj h => ⟨j, hj, h⟩
      · cases hd
        exact hcalls
      · rw [World.execution, hi, Option.bind_none]
    rw [heq]
    refine ⟨hs.turn hturn, hs.released hturn fun job rest hstarting => ?_⟩
    rw [hi] at hstarting
    cases hstarting

theorem clean_step (hs : Clean s.world) (hapart : Apart s e) (hanswered : Answered zones s e) :
    Clean (s.step zones maxConcurrentJobs e).world ∧
      Released s.world (s.step zones maxConcurrentJobs e).world := by
  cases e with
  | start i op env =>
    simp only [Service.step, World.step]
    split
    · next hi =>
      refine clean_start hs hi fun job hop => ?_
      rcases hop with rfl | rfl
      · exact hapart
      · exact hapart
    · exact ⟨hs, released_of_calls_eq rfl⟩
  | resume i env answer =>
    simp only [Service.step]
    split
    · exact ⟨hs, released_of_calls_eq rfl⟩
    · next c hi =>
      have hturn : Turn s.world i (s.world.resumeWith zones maxConcurrentJobs i env c answer) := by
        refine turn_resumeWith hs hi ?_ (hanswered c hi).1 (hanswered c hi).2
        rintro job rest rfl
        exact hapart job rest hi
      exact ⟨hs.turn hturn, hs.released hturn hapart⟩
  | unschedule i id =>
    simp only [Service.step]
    split
    · exact ⟨hs, released_of_calls_eq rfl⟩
    · split
      · exact ⟨hs, released_of_calls_eq rfl⟩
      · exact ⟨hs, released_of_calls_eq rfl⟩
  | remove i answer =>
    simp only [Service.step]
    split
    · exact ⟨hs, released_of_calls_eq rfl⟩
    · split
      · exact ⟨hs, released_of_calls_eq rfl⟩
      · exact ⟨hs, released_of_calls_eq rfl⟩
    · next id hi =>
      cases answer with
      | ok => exact ⟨hs.delete id, released_of_calls_eq rfl⟩
      | failed applied =>
        cases applied with
        | true => exact ⟨hs.delete id, released_of_calls_eq rfl⟩
        | false => exact ⟨hs, released_of_calls_eq rfl⟩

/-- An execution that is not answered leaks, and so does a running job that is stored unanswered. -/
theorem answered_of_noLeak (hs : Clean s.world) (hapart : Apart s e)
    (h : NoLeak (s.step zones maxConcurrentJobs e).world) : Answered zones s e := by
  cases e with
  | start i op env => trivial
  | unschedule i id => trivial
  | remove i answer => trivial
  | resume i env answer =>
    intro c hi
    have hi' : s.world.calls i = some c := hi
    have hworld : (s.step zones maxConcurrentJobs (.resume i env answer)).world =
        s.world.resumeWith zones maxConcurrentJobs i env c answer := by
      simp only [Service.step, hi']
    rw [hworld] at h
    constructor
    · -- The write that the job runs is done, and answered by an error.
      rintro job rest rfl rfl hid
      have hcopy := Job.markAsRunning_eq_ok.mpr ⟨(hs.calls i _ hi').1.1, rfl⟩
      have hjobs : (s.world.resume zones maxConcurrentJobs i env (.starting job rest)).jobs =
          s.world.jobs.insert job.id { job with status := .running } := by
        simp only [World.resume, hcopy]
        unfold World.update Storage.updateJob
        rw [if_pos hid]
        rfl
      have hstores : Call.stores zones env (.starting job rest) = true := by
        rw [Call.stores, hcopy]
        rfl
      simp only [World.resumeWith, if_pos hstores, World.fail, if_true, hjobs] at h
      -- The job is stored as running, and its execution has returned.
      obtain ⟨k, hk⟩ := h.running job.id { job with status := .running }
        (by rw [goOn_jobs]; exact AList.lookup_insert _) rfl
      have hexecution := World.execution_of_running hk
      by_cases hki : k = i
      · rw [hki, execution_goOn] at hexecution
        cases hexecution
      · rw [World.execution, goOn_calls_of_ne _ _ _ hki] at hexecution
        exact hapart job rest hi' k hexecution
    · intro id hid hstores
      by_contra hfailed
      have hslot : s.world.slot i = some id := by
        rw [World.slot, hi']
        exact Call.slot_of_stores hid hstores
      -- Whatever the storage did, the execution has returned with its slot.
      cases answer with
      | ok =>
        have hstored : id ∉ s.world.jobs := fun hmem => hfailed ⟨rfl, hmem⟩
        simp only [World.resumeWith] at h
        rw [resume_of_not_stored hid hstores hstored] at h
        exact leaks hs hslot s.world.jobs c.rest h
      | failed applied =>
        simp only [World.resumeWith, if_pos hstores] at h
        exact leaks hs hslot _ c.rest h

end Steps

section Runs

variable {zones : TimeZones} {maxConcurrentJobs : ℕ}

/-- No execution leaks, and each leaves neither its slot nor a running job when it returns. -/
def LeavesNone (zones : TimeZones) (maxConcurrentJobs : ℕ) (s : Service π) (e : Event π) : Prop :=
  NoLeak (s.step zones maxConcurrentJobs e).world ∧
    Released s.world (s.step zones maxConcurrentJobs e).world

/-- In a run without overlapping executions no slot leaks exactly as long as the storage answers to
every execution that is written as running. -/
theorem leaves_none_iff {events : List (Event π)}
    (h : Along (Service.step zones maxConcurrentJobs) Apart (Service.new π) events) :
    Along (Service.step zones maxConcurrentJobs) (LeavesNone zones maxConcurrentJobs) (Service.new π)
        events ↔
      Along (Service.step zones maxConcurrentJobs) (Answered zones) (Service.new π) events := by
  have hiff : Along (Service.step zones maxConcurrentJobs)
        (fun s e => Apart s e ∧ LeavesNone zones maxConcurrentJobs s e) (Service.new π) events ↔
      Along (Service.step zones maxConcurrentJobs) (fun s e => Apart s e ∧ Answered zones s e)
        (Service.new π) events := by
    refine along_iff_of_invariant (I := fun s => Clean s.world) _
      (fun s e hs hC => (clean_step hs hC.1 hC.2).1) (fun s e hs => ?_) clean_new
    refine and_congr_right fun hapart => ⟨fun hnone => answered_of_noLeak hs hapart hnone.1, ?_⟩
    intro hanswered
    have hstep : Clean (s.step zones maxConcurrentJobs e).world ∧
        Released s.world (s.step zones maxConcurrentJobs e).world := clean_step hs hapart hanswered
    exact ⟨hstep.1.toNoLeak, hstep.2⟩
  constructor
  · intro hnone
    exact (hiff.mp (h.and _ hnone)).mono _ fun s e hC => hC.2
  · intro hanswered
    exact (hiff.mpr (h.and _ hanswered)).mono _ fun s e hC => hC.2

end Runs

/-! ## Runs of one job -/

/-- A call that is not about to start an execution keeps clear of the others. -/
theorem apart_resume {s : Service π} {i : ℕ} {env : Env} {answer : Answer}
    (h : ∀ c ∈ s.world.calls i, c.executes = c.execution) : Apart s (.resume i env answer) := by
  intro job rest hi
  cases h _ hi

/-- Where the events lead. -/
def served (events : List (Event Unit)) : Service Unit :=
  run (Service.step january 10) (Service.new Unit) events

/-- The job is triggered, executed and scheduled again. -/
def triggered : List (Event Unit) :=
  List.map Act.answered (scheduled ++ .start 1 (.triggerJob "report") succeeding ::
    List.replicate 6 (.resume 1 succeeding))

theorem leaves_none_triggered :
    Along (Service.step january 10) (LeavesNone january 10) (Service.new Unit) triggered ↔
      Along (Service.step january 10) (Answered january) (Service.new Unit) triggered := by
  refine leaves_none_iff ⟨?_, ?_, trivial, ?_, ?_, ?_, ?_, ?_, ?_, trivial⟩
  · show report.status ≠ .running
    decide
  · exact apart_resume (by decide +kernel)
  · have hnone (k : ℕ) : (served (triggered.take 3)).world.execution k = none := by
      rcases k with _ | _ | k
      · decide +kernel
      · decide +kernel
      · rfl
    intro job rest _ k hk
    cases (hnone k).symm.trans hk
  · exact apart_resume (by decide +kernel)
  · exact apart_resume (by decide +kernel)
  · exact apart_resume (by decide +kernel)
  · exact apart_resume (by decide +kernel)
  · exact apart_resume (by decide +kernel)

/-- The job is in execution. -/
def executed : List (Event Unit) :=
  List.map Act.answered (scheduled ++ inExecution 1 ++ [.resume 1 succeeding])

/-- The job is unscheduled between the write that it runs and the lock of the active jobs. -/
def withdrawn : List (Event Unit) :=
  List.map Act.answered scheduled ++
    [.start 1 (.triggerJob "report") succeeding, .resume 1 succeeding .ok, .unschedule 2 "report",
      .remove 2 .ok, .resume 1 succeeding .ok, .remove 2 .ok, .resume 1 succeeding .ok]

/-- Two triggers that both read the job as scheduled; the first is about to return. -/
def overlapping : List (Event Unit) :=
  List.map Act.answered (scheduled ++ [.start 1 (.triggerJob "report") succeeding,
      .start 2 (.triggerJob "report") succeeding] ++
    List.replicate 2 (.resume 1 succeeding) ++ List.replicate 2 (.resume 2 succeeding) ++
      List.replicate 3 (.resume 1 succeeding))

/-- A step that leaks ends no run that does not. -/
theorem not_along_of_last {events : List (Event Unit)} {e : Event Unit}
    (h : ¬LeavesNone january 10 (served events) e) :
    ¬Along (Service.step january 10) (LeavesNone january 10) (Service.new Unit) (events ++ [e]) := by
  intro hall
  exact h ((along_append _).mp hall).2.1

/-- The id stays active when the storage fails to write the completion, and when the job is
unscheduled before its id is put in; the first of two executions takes out the id of the second. -/
theorem slots_leak :
    ¬Along (Service.step january 10) (LeavesNone january 10) (Service.new Unit)
        (executed ++ [.resume 1 succeeding (.failed false)]) ∧
      ¬Along (Service.step january 10) (LeavesNone january 10) (Service.new Unit)
          (withdrawn ++ [.resume 1 succeeding .ok]) ∧
        ¬Along (Service.step january 10) (LeavesNone january 10) (Service.new Unit)
            (overlapping ++ [.resume 1 succeeding .ok]) := by
  refine ⟨not_along_of_last fun h => ?_, not_along_of_last fun h => ?_,
    not_along_of_last fun h => ?_⟩
  · refine (h.2 1 "report" ⟨?_, ?_, ?_⟩).1 ?_
    · decide +kernel
    · decide +kernel
    · decide +kernel
    · decide +kernel
  · refine (h.2 1 "report" ⟨?_, ?_, ?_⟩).1 ?_
    · decide +kernel
    · decide +kernel
    · decide +kernel
    · decide +kernel
  · have hfree : "report" ∉
        ((served overlapping).step january 10 (.resume 1 succeeding .ok)).world.activeJobs := by
      decide +kernel
    refine hfree ((h.1.active "report").mpr ⟨2, ?_⟩)
    decide +kernel

end Backbone.Jobs
