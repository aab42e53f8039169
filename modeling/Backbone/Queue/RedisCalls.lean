import Backbone.Queue.RedisKept

/-!
# Calls of a Redis queue, one after another

With one consumer and a working Redis no call disturbs another: each finds its messages and executes
its commands on the same sets. A call is then one step of a `Store`, the sets between two calls, and
`Store.exists_clients_run` ties their runs to the interleaved ones.

Reference: `backbone-queue/src/redis.rs`.
-/

namespace Backbone.Queue.Redis

open Machine

variable {π : Type}

/-- The sets and the clock between two calls. -/
structure Store (π : Type) where
  sets : Place → ZSet π
  clock : ℤ

/-- A call is made, or time passes. -/
inductive Turn (π : Type) where
  | perform (op : Op π)
  | elapse (nanos : ℕ)

namespace Store

/-- The messages that the read of an operation finds. -/
def finds (text : QueueMessage π → String) (s : Store π) (op : Op π) : List (QueueMessage π) :=
  World.finds text ⟨s.sets, fun _ => none, s.clock⟩ s.clock op

variable (text : QueueMessage π → String) (s : Store π)

theorem finds_eq (w : World π) (op : Op π) :
    w.finds text w.clock op = finds text ⟨w.sets, w.clock⟩ op := by
  cases op <;> rfl

/-- The commands that a call executes: `delete` goes on to the queue when processing does not hold
the message. -/
def commands (text : QueueMessage π → String) (s : Store π) (op : Op π) : List (Cmd π) :=
  match op with
  | .enqueue _ | .enqueueBatch _ =>
    match op.given.mapM (·.check text) with
    | .ok _ => op.given.flatMap op.cmds
    | .error _ => []
  | .delete id =>
    if (s.finds text op).isEmpty then
      (s.finds text (.deleteQueued id)).flatMap (Op.deleteQueued id).cmds
    else (s.finds text op).flatMap op.cmds
  | _ => (s.finds text op).flatMap op.cmds

/-- What `dequeue` answers. -/
def dequeued (text : QueueMessage π → String) (s : Store π) : Option (QueueMessage π) :=
  (s.finds text .dequeue).head?

/-- A `dequeue` finds one message at most. -/
theorem finds_dequeue : s.finds text .dequeue = (s.dequeued text).toList := by
  have hlength : (s.finds text .dequeue).length ≤ 1 := List.length_take_le 1 _
  rw [dequeued]
  rcases h : s.finds text .dequeue with _ | ⟨m, _ | ⟨m', ms⟩⟩
  · rfl
  · rfl
  · simp [h] at hlength

variable [DecidableEq π]

def exec (s : Store π) (c : Cmd π) : Store π :=
  { s with sets := Function.update s.sets c.place (c.exec s.clock (s.sets c.place)) }

def step (text : QueueMessage π → String) (s : Store π) : Turn π → Store π
  | .perform op => (s.commands text op).foldl exec s
  | .elapse nanos => { s with clock := s.clock + nanos }

@[simp] theorem clock_exec (c : Cmd π) : (s.exec c).clock = s.clock := rfl

@[simp] theorem clock_foldl_exec (cs : List (Cmd π)) : (cs.foldl exec s).clock = s.clock := by
  induction cs generalizing s with
  | nil => rfl
  | cons c cs ih => rw [List.foldl_cons, ih, clock_exec]

end Store

/-! ## The calls of a client -/

/-- The steps of a call that nothing disturbs. -/
def undisturbed (i : ℕ) (op : Op π) (now : ℤ) (n : ℕ) : List (Act π) :=
  .call i op :: (List.replicate 2 (.read i now none) ++
    (List.replicate n (.exec i now true) ++ [.finish i ""]))

theorem clients_setClient (w : World π) (i : ℕ) (c : Client π) :
    (w.setClient i c).clients i = some c := by
  simp [World.setClient]

section Undisturbed

variable [DecidableEq π] (text : QueueMessage π → String) {w : World π} {i : ℕ} {op : Op π}
  {answer : Answer π} {job : Job π}

/-- The commands are executed in their order. -/
theorem run_exec (hi : w.clients i = some (.working job)) :
    let w' := run (World.step text) w (List.replicate job.cmds.length (.exec i w.clock true))
    w'.sets = (job.cmds.foldl Store.exec ⟨w.sets, w.clock⟩).sets ∧ w'.clock = w.clock ∧
      w'.clients i = some (.working { job with cmds := [] }) := by
  intro w'
  obtain ⟨kind, found, cmds, failed⟩ := job
  induction cmds generalizing w failed with
  | nil => exact ⟨rfl, rfl, hi⟩
  | cons c cmds ih =>
    have hstep : w.step text (.exec i w.clock true) =
        ({ w with sets := (Store.exec ⟨w.sets, w.clock⟩ c).sets } : World π).setClient i
          (.working ⟨kind, found, cmds, failed⟩) := by
      rw [World.step_exec hi rfl, Job.rest, World.executed, if_pos rfl, World.after]
      simp [Store.exec]
    have hclient : (w.step text (.exec i w.clock true)).clients i =
        some (.working ⟨kind, found, cmds, failed⟩) := by
      rw [hstep]
      simp [World.setClient]
    obtain ⟨hsets, hclock, hdone⟩ := ih failed hclient
    have hw' : w' = run (World.step text) (w.step text (.exec i w.clock true))
        (List.replicate cmds.length (.exec i w.clock true)) := rfl
    rw [hstep] at hsets hclock hdone hw'
    exact ⟨hw' ▸ hsets, hw' ▸ hclock, hw' ▸ hdone⟩

/-- The commands of a job, and then its answer. -/
theorem run_job (hi : w.clients i = some (.working job)) :
    let w' := run (World.step text) w
      (List.replicate job.cmds.length (.exec i w.clock true) ++ [.finish i ""])
    w'.sets = (job.cmds.foldl Store.exec ⟨w.sets, w.clock⟩).sets ∧ w'.clock = w.clock ∧
      w'.clients i = some (.answered (job.answer "")) := by
  obtain ⟨hsets, hclock, hdone⟩ := run_exec text hi
  intro w'
  have hw' : w' = (run (World.step text) w
      (List.replicate job.cmds.length (.exec i w.clock true))).setClient i
        (.answered (job.answer "")) := by
    show run (World.step text) w _ = _
    rw [run_append, run_cons, run_nil]
    simp only [World.step, hdone, List.isEmpty_nil, if_true]
    rfl
  rw [hw']
  exact ⟨hsets, hclock, by simp [World.setClient]⟩

/-- A read of a client that is not to read changes nothing. -/
theorem run_reads (h : ∀ op, w.clients i ≠ some (.asked op)) (now : ℤ) (k : ℕ) :
    run (World.step text) w (List.replicate k (.read i now none)) = w := by
  have hstep : w.step text (.read i now none) = w := by
    simp only [World.step]
  induction k with
  | zero => rfl
  | succ k ih => rw [List.replicate_succ, run_cons, hstep, ih]

/-- What is left of a call that works, or has its answer. -/
theorem run_working (hi : w.clients i = some (.working job)) (k : ℕ) :
    let w' := run (World.step text) w (List.replicate k (.read i w.clock none) ++
      (List.replicate job.cmds.length (.exec i w.clock true) ++ [.finish i ""]))
    w'.sets = (job.cmds.foldl Store.exec ⟨w.sets, w.clock⟩).sets ∧ w'.clock = w.clock ∧
      w'.clients i = some (.answered (job.answer "")) := by
  rw [run_append, run_reads text (by rw [hi]; rintro op ⟨⟩)]
  exact run_job text hi

theorem run_answered (hi : w.clients i = some (.answered answer)) (k : ℕ) :
    run (World.step text) w (List.replicate k (.read i w.clock none) ++ [.finish i ""]) = w := by
  rw [run_append, run_reads text (by rw [hi]; rintro op ⟨⟩)]
  simp [run, World.step, hi]

/-- What is left of a call that is to read, where a read that finds nothing answers the call. -/
theorem run_asked (hi : w.clients i = some (.asked op)) (hmissed : op.missed = .answered answer)
    {ms : List (QueueMessage π)} (hms : Store.finds text ⟨w.sets, w.clock⟩ op = ms) (k : ℕ) :
    let w' := run (World.step text) w (List.replicate (k + 1) (.read i w.clock none) ++
      (List.replicate (ms.flatMap op.cmds).length (.exec i w.clock true) ++ [.finish i ""]))
    w'.sets = ((ms.flatMap op.cmds).foldl Store.exec ⟨w.sets, w.clock⟩).sets ∧
      w'.clock = w.clock ∧
        w'.clients i = some (.answered (if ms = [] then answer else (op.job ms).answer "")) := by
  rw [List.replicate_succ, List.cons_append, run_cons]
  cases ms with
  | nil =>
    have hread : w.step text (.read i w.clock none) = w.setClient i (.answered answer) := by
      simp only [World.step, hi, Store.finds_eq, hms, hmissed]
    have hi' : (w.setClient i (.answered answer)).clients i = some (.answered answer) := by
      simp [World.setClient]
    rw [hread, List.flatMap_nil, List.length_nil, List.replicate_zero, List.nil_append,
      show w.clock = (w.setClient i (.answered answer)).clock from rfl, run_answered text hi']
    exact ⟨rfl, rfl, hi'⟩
  | cons m rest =>
    have hread : w.step text (.read i w.clock none) =
        w.setClient i (.working (op.job (m :: rest))) := by
      simp only [World.step, hi, Store.finds_eq, hms]
    have hi' : (w.setClient i (.working (op.job (m :: rest)))).clients i =
        some (.working (op.job (m :: rest))) := by
      simp [World.setClient]
    rw [hread]
    exact run_working text hi' k

/-- A call that reads. -/
theorem run_undisturbed_asked (hcall : w.step text (.call i op) = w.setClient i (.asked op))
    (hmissed : op.missed = .answered answer) (hcommands : Store.commands text ⟨w.sets, w.clock⟩ op =
      (Store.finds text ⟨w.sets, w.clock⟩ op).flatMap op.cmds) :
    let s : Store π := ⟨w.sets, w.clock⟩
    let w' := run (World.step text) w (undisturbed i op w.clock (s.commands text op).length)
    w'.sets = (s.step text (.perform op)).sets ∧ w'.clock = w.clock ∧
      w'.clients i = some (.answered
        (if s.finds text op = [] then answer else (op.job (s.finds text op)).answer "")) := by
  intro s w'
  have hw' : w' = run (World.step text) (w.setClient i (.asked op))
      (List.replicate 2 (.read i w.clock none) ++ (List.replicate
        ((s.finds text op).flatMap op.cmds).length (.exec i w.clock true) ++ [.finish i ""])) := by
    rw [← hcommands, ← hcall]
    rfl
  rw [hw', Store.step, hcommands]
  exact run_asked text (clients_setClient w i _) hmissed rfl 1

section

variable (hi : w.clients i = none)
include hi

/-- A `dequeue` answers what it finds. -/
theorem dequeue_undisturbed :
    let s : Store π := ⟨w.sets, w.clock⟩
    let w' := run (World.step text) w
      (undisturbed i .dequeue w.clock (s.commands text .dequeue).length)
    w'.clients i = some (.answered (.dequeued (s.dequeued text).toList)) := by
  intro s w'
  have hcall : w.step text (.call i .dequeue) = w.setClient i (.asked .dequeue) := by
    simp only [World.step, hi]
  have hmissed : (Op.dequeue : Op π).missed = .answered (.dequeued []) := rfl
  obtain ⟨-, -, hanswer⟩ := run_undisturbed_asked text hcall hmissed rfl
  rw [hanswer, ← Store.finds_dequeue]
  cases Store.finds text ⟨w.sets, w.clock⟩ .dequeue with
  | nil => rfl
  | cons m ms => rfl

end

end Undisturbed

end Backbone.Queue.Redis
