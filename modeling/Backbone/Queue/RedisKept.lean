import Backbone.Queue.RedisTracked

/-!
# What a Redis queue keeps

Moving a message is a removal and an addition, whose results are ignored. Between the two the message
is in no set, and for good when the addition fails or the client stops; two clients that read the same
head both return it (`not_kept`). As long as the operations on one message follow one another and none
of their commands is lost, a message is lost only while a client is between the two (`kept_iff`).

Reference: `backbone-queue/src/redis.rs`.
-/

namespace Backbone.Queue.Redis

open Machine

variable {π : Type}

/-- What clients may expect of the queue. -/
structure Kept (q : World π × Log) : Prop where
  somewhere : ∀ x, q.2.accepted x = true → q.2.settled x = false → q.1.held x ≠ []
  single : ∀ x, q.2.accepted x = true → q.2.settled x = false →
    (∀ i job, q.1.clients i = some (.working job) → x ∉ job.ids) → (q.1.held x).length = 1
  apart : ∀ x, q.2.twice x = false

variable {text : QueueMessage π → String}

/-- An id is used once; what an operation finds no other operation is moving; the commands that store
or move a message do not fail; and no client stops between a removal and its addition. -/
def Orderly (text : QueueMessage π → String) (q : World π × Log) : Act π → Prop
  | .call i op => q.1.clients i = none →
      (op.given.map (·.id)).Nodup ∧ ∀ m ∈ op.given, q.2.used m.id = false
  | .read i now none => ∀ op, q.1.clients i = some (.asked op) → op.kind.moves = true →
      ∀ m ∈ q.1.finds text now op, ∀ j job, q.1.clients j = some (.working job) →
        job.kind.moves = true → m.id ∉ job.ids
  | .exec i _ false => ∀ job, q.1.clients i = some (.working job) → job.cmds ≠ [] →
      job.kind = .settle ∨ job.kind = .enqueue true
  | .stop i => ∀ job x, q.1.clients i = some (.working job) → job.between x →
      q.2.settled x = true
  | _ => True

/-! ## What a step does -/

section Op

variable {op : Op π} {m : QueueMessage π}

theorem Op.enqueues_of_mem_finds {w : World π} {now : ℤ} (h : m ∈ w.finds text now op) :
    op.kind.enqueues = false := by
  cases op with
  | enqueue m' => cases h
  | enqueueBatch ms => cases h
  | _ => rfl

theorem Op.reads_of_dequeues (h : op.kind.dequeues = true) : op.reads = .queue := by
  cases op with
  | dequeue => rfl
  | dequeueBatch maxMessages => rfl
  | _ => cases h

variable (m : QueueMessage π)

/-- A message is moved away from where it was found. -/
theorem Op.cmds_of_moves (h : op.kind.moves = true) :
    ∃ c : Cmd π, op.cmds m = [.remove op.reads m, c] ∧ c.isRemove = false ∧
      (op.kind.dequeues = true → c.place ≠ .queue) := by
  cases op with
  | dequeue => exact ⟨.process m, rfl, rfl, fun _ hplace => by cases hplace⟩
  | dequeueBatch maxMessages => exact ⟨.process m, rfl, rfl, fun _ hplace => by cases hplace⟩
  | nack id delaySeconds =>
    refine ⟨_, rfl, ?_, fun hdequeues => by cases hdequeues⟩
    split <;> rfl
  | _ => cases h

theorem Op.cmds_of_settle (h : op.kind = .settle) : op.cmds m = [.remove op.reads m] := by
  cases op with
  | ack id => rfl
  | delete id => rfl
  | deleteQueued id => rfl
  | _ => cases h

theorem Op.cmds_of_enqueues (h : op.kind.enqueues = true) : op.cmds m = [.enqueue m] := by
  cases op with
  | enqueue m' => rfl
  | enqueueBatch ms => rfl
  | _ => cases h

theorem Op.missed_ne (job : Job π) : op.missed ≠ .working job := by
  intro h
  cases op <;> cases h

theorem Op.unread_ne (e : String) (job : Job π) : op.unread e ≠ .working job := by
  intro h
  cases op <;> cases h

end Op

section Steps

variable [DecidableEq π] {w : World π} {i : ℕ} {op : Op π}

/-- A call starts to enqueue what it is given, or no job. -/
theorem World.step_call (hi : w.clients i = none) :
    (op.kind.enqueues = true ∧
      w.step text (.call i op) = w.setClient i (.working (op.job op.given))) ∨
    ∃ c, (∀ job, c ≠ .working job) ∧ w.step text (.call i op) = w.setClient i c := by
  have hasked : ∀ job : Job π, Client.asked op ≠ .working job := fun job h => by cases h
  have hrefused : ∀ (e : QueueError) (job : Job π), Client.answered (.error e) ≠ .working job :=
    fun e job h => by cases h
  cases op with
  | enqueue m =>
    simp only [step, hi]
    split
    · exact .inl ⟨rfl, rfl⟩
    · exact .inr ⟨_, hrefused _, rfl⟩
  | enqueueBatch ms =>
    simp only [step, hi]
    split
    · exact .inl ⟨rfl, rfl⟩
    · exact .inr ⟨_, hrefused _, rfl⟩
  | _ => exact .inr ⟨_, hasked, by simp only [step, hi]⟩

/-- A read starts the job on what it finds, or no job. -/
theorem World.step_read (hi : w.clients i = some (.asked op)) (now : ℤ) (error : Option String) :
    (error = none ∧ w.step text (.read i now error) =
      w.setClient i (.working (op.job (w.finds text now op)))) ∨
    ∃ c, (∀ job, c ≠ .working job) ∧ w.step text (.read i now error) = w.setClient i c := by
  simp only [step, hi]
  cases error with
  | some e => exact .inr ⟨_, op.unread_ne e, rfl⟩
  | none =>
    rcases w.finds text now op with _ | ⟨m, ms⟩
    · exact .inr ⟨_, op.missed_ne, rfl⟩
    · exact .inl ⟨rfl, rfl⟩

theorem World.step_exec {job : Job π} {c : Cmd π} {rest : List (Cmd π)}
    (hi : w.clients i = some (.working job)) (hcmds : job.cmds = c :: rest) (now : ℤ) (ok : Bool) :
    w.step text (.exec i now ok) =
      (w.executed c (min now w.clock) ok).setClient i (.working (job.rest rest ok)) := by
  simp only [step, hi, hcmds]
  cases ok <;> rfl

end Steps

/-! ## The log of what is returned -/

namespace Log

variable {now : ℤ} {x : String}

theorem foldl_returned (h : Log) (ms : List (QueueMessage π)) :
    (ms.foldl (returned now) h).used = h.used ∧ (ms.foldl (returned now) h).stored = h.stored ∧
      (ms.foldl (returned now) h).accepted = h.accepted ∧
      (ms.foldl (returned now) h).settled = h.settled := by
  induction ms generalizing h with
  | nil => exact ⟨rfl, rfl, rfl, rfl⟩
  | cons m ms ih => exact ih (h.returned now m)

theorem foldl_returned_of_not_mem (h : Log) (ms : List (QueueMessage π))
    (hx : x ∉ ms.map (·.id)) :
    (ms.foldl (returned now) h).out x = h.out x ∧
      (ms.foldl (returned now) h).twice x = h.twice x := by
  induction ms generalizing h with
  | nil => exact ⟨rfl, rfl⟩
  | cons m ms ih =>
    rw [List.map_cons, List.mem_cons, not_or] at hx
    obtain ⟨hout, htwice⟩ := ih (returned now h m) hx.2
    rw [List.foldl_cons, hout, htwice]
    simp [returned, hx.1]

/-- Nothing is returned twice that was not out and is returned once. -/
theorem twice_foldl_returned (h : Log) (ms : List (QueueMessage π)) (hnone : h.out x = none)
    (hcount : ms.countP (fun m => decide (m.id = x)) ≤ 1) :
    (ms.foldl (returned now) h).twice x = h.twice x := by
  induction ms generalizing h with
  | nil => rfl
  | cons m ms ih =>
    rw [List.foldl_cons]
    by_cases hm : m.id = x
    · have hrest : x ∉ ms.map (·.id) := by
        intro hx
        obtain ⟨m', hm', hid⟩ := List.mem_map.mp hx
        have hpos : 0 < ms.countP (fun m => decide (m.id = x)) :=
          List.countP_pos_iff.mpr ⟨m', hm', decide_eq_true hid⟩
        simp only [List.countP_cons, hm, decide_true, if_true] at hcount
        omega
      rw [(foldl_returned_of_not_mem _ ms hrest).2]
      simp [returned, hnone]
    · have hne : x ≠ m.id := fun hx => hm hx.symm
      simp only [List.countP_cons, hm, decide_false, Bool.false_eq_true, if_false] at hcount
      rw [ih (returned now h m) (by simp [returned, hne, hnone]) hcount]
      simp [returned, hne]

end Log

/-! ## The invariant is kept -/

section

variable {q : World π × Log} {x : String} {i : ℕ} {op : Op π} {job : Job π}

/-- A client that reads finds what is to be moved moved by nobody. -/
theorem Tracked.read (h : Tracked q x) (hi : q.1.clients i = some (.asked op)) (now : ℤ)
    (hlone : op.kind.moves = true → ∀ m ∈ q.1.finds text now op, ∀ j job,
      q.1.clients j = some (.working job) → job.kind.moves = true → m.id ∉ job.ids) :
    Tracked (q.1.setClient i (.working (op.job (q.1.finds text now op))), q.2) x := by
  by_cases hx : x ∈ (op.job (q.1.finds text now op)).ids
  · obtain ⟨m, hm, rfl⟩ : ∃ m ∈ q.1.finds text now op, m.id = x := List.mem_map.mp hx
    have hmem := mem_held_of_finds hm
    have hheld := h.held_eq hmem
    have henqueues := Op.enqueues_of_mem_finds hm
    have hcount : (q.1.finds text now op).countP (fun m' => decide (m'.id = m.id)) ≤ 1 :=
      countP_finds_le h.one
    have hcmds : (op.job (q.1.finds text now op)).cmdsOf m.id = op.cmds m :=
      cmdsOf_job_of_mem hm hcount
    refine h.join _ hx rfl rfl rfl (List.ne_nil_of_mem hmem) henqueues hcount
      (fun hmoves j job hj hmoves' => hlone hmoves m hm j job hj hmoves') (fun hmoves => ?_)
      (fun hsettle c hc => ?_) fun hout => ⟨?_, fun hnack => ?_⟩
    · obtain ⟨c, hop, hadd, hplace⟩ := op.cmds_of_moves m hmoves
      rw [hcmds, hop]
      exact ⟨rfl, hadd, .inr hheld, hplace⟩
    · rw [hcmds, op.cmds_of_settle m hsettle] at hc
      rw [List.mem_singleton.mp hc]
      rfl
    · -- What is out is not in the queue, where a dequeue would have found it.
      by_contra hdequeues
      have hplace := Op.reads_of_dequeues (Bool.eq_true_of_not_eq_false hdequeues)
      exact (h.out hout).1 _ hmem hplace
    · obtain ⟨c, hop, -, -⟩ := op.cmds_of_moves m (by rw [show op.kind = .nack from hnack]; rfl)
      rw [hcmds, hop]
      exact le_rfl
  · refine h.start (fun job hi' => ?_) hx (cmdsOf_job_of_not_mem hx) rfl
      ⟨rfl, rfl, rfl, rfl, rfl, h.accepted, id⟩
    rw [hi] at hi'
    cases hi'

/-- A client that is given messages to enqueue is given each id once. -/
theorem Tracked.call (h : Tracked q x) (hi : q.1.clients i = none) {log : Log}
    (henqueues : op.kind.enqueues = true) (hnodup : (op.given.map (·.id)).Nodup)
    (hunused : ∀ m ∈ op.given, q.2.used m.id = false)
    (hlog : log = { q.2 with used := fun y => q.2.used y || (op.given.map (·.id)).contains y }) :
    Tracked (q.1.setClient i (.working (op.job op.given)), log) x := by
  subst hlog
  by_cases hx : x ∈ (op.job op.given).ids
  · obtain ⟨m, hm, rfl⟩ : ∃ m ∈ op.given, m.id = x := List.mem_map.mp hx
    have hcount : op.given.countP (fun m' => decide (m'.id = m.id)) ≤ 1 := by
      have hle := List.nodup_iff_count_le_one.mp hnodup m.id
      rw [List.count, List.countP_map] at hle
      exact hle
    refine h.enter _ (hunused m hm) hx ?_ (c := .enqueue m) rfl henqueues rfl rfl ?_ rfl rfl rfl rfl
    · rw [cmdsOf_job_of_mem hm hcount, op.cmds_of_enqueues m henqueues]
    · have hcontains : (op.given.map (·.id)).contains m.id = true :=
        List.contains_iff_mem.mpr hx
      show (q.2.used m.id || (op.given.map (·.id)).contains m.id) = true
      rw [hcontains, Bool.or_true]
  · refine h.start (fun job hi' => ?_) hx (cmdsOf_job_of_not_mem hx) rfl
      ⟨rfl, rfl, rfl, rfl, rfl, h.accepted, fun hused => (Bool.or_eq_false_iff.mp hused).1⟩
    rw [hi] at hi'
    cases hi'

/-- A client that has sent its commands answers. -/
theorem Tracked.finish (h : Tracked q x) (hi : q.1.clients i = some (.working job))
    (hcmds : job.cmds = []) (now : ℤ) (answer : Answer π) :
    Tracked (q.1.setClient i (.answered answer), q.2.finished now job) x := by
  have hanswered : ∀ job' : Job π, Client.answered answer ≠ .working job' := by
    intro job' hw
    cases hw
  have hcmdsOf : job.cmdsOf x = [] := by
    rw [Job.cmdsOf, hcmds]
    rfl
  have hbetween : ∀ job', q.1.clients i = some (.working job') → job'.between x →
      q.2.settled x = true := by
    intro job' hi' hb
    rw [hi] at hi'
    cases hi'
    exact absurd hcmdsOf hb.2.1
  have hleft : Tracked (q.1.setClient i (.answered answer), q.2) x :=
    h.leave hanswered rfl ⟨rfl, rfl, rfl, rfl, rfl, h.accepted, id⟩ hbetween
  unfold Log.finished
  split
  · exact hleft
  · next hfails =>
    split
    · next henqueues =>
      refine h.leave hanswered rfl
        ⟨rfl, rfl, rfl, rfl, rfl, fun haccepted => ?_, id⟩ hbetween
      rcases Bool.or_eq_true_iff.mp haccepted with hbefore | hnow
      · exact h.accepted hbefore
      · -- All that it had to enqueue is stored.
        have hentering := h.entering i job hi (List.contains_iff_mem.mp hnow) henqueues
        rw [hcmdsOf] at hentering
        exact hentering.resolve_right hfails
    · split
      · next hdequeues =>
        obtain ⟨hused, hstored, haccepted, hsettled⟩ := @Log.foldl_returned π now q.2 job.found
        by_cases hx : x ∈ job.ids
        · have hmoves := Kind.moves_of_dequeues hdequeues
          have hprogress := h.moving i job hi hx hmoves
          rw [hcmdsOf] at hprogress
          have hnone : q.2.out x = none := by
            by_contra hsome
            rw [((h.out hsome).2 i job hi hx).1] at hdequeues
            cases hdequeues
          refine hleft.hand rfl (hprogress.2 hdequeues) (fun j job' hj hx' => ?_)
            (by rw [hused]) ?_ (by rw [hstored]) (by rw [hsettled]) (by rw [haccepted])
            (Log.twice_foldl_returned q.2 job.found hnone (h.lone i job hi hdequeues))
          · rcases clients_update rfl hj with ⟨-, hw⟩ | ⟨hji, hj'⟩
            · cases hw
            · refine ⟨?_, fun henqueues' => ?_⟩
              · by_contra hmoves'
                exact hji (h.sole j i job' job hj' hi hx' hx (Bool.eq_true_of_not_eq_false hmoves')
                  hmoves)
              · by_contra hne
                rw [h.unmoved j i job' job hj' hi hx' hx henqueues' hne] at hmoves
                cases hmoves
          · by_contra hfree
            exact (h.fresh (Bool.eq_false_of_not_eq_true hfree)).2.2.2 i job hi hx
        · obtain ⟨hout, htwice⟩ := @Log.foldl_returned_of_not_mem π now x q.2 job.found hx
          refine h.leave hanswered rfl ⟨rfl, by rw [hstored], by rw [hsettled], hout, htwice,
            fun haccepted' => ?_, fun hused' => ?_⟩ hbetween
          · rw [haccepted] at haccepted'
            rw [hstored]
            exact h.accepted haccepted'
          · rwa [hused] at hused'
      · exact hleft

/-- A message that somebody is between the removal and the addition of is in no set. -/
theorem Tracked.held_of_between (h : Tracked q x)
    (hi : q.1.clients i = some (.working job)) (hb : job.between x) : q.1.held x = [] := by
  obtain ⟨hmoves, hne, hadds⟩ := hb
  have hprogress := h.moving i job hi (h.named i job hi hne) hmoves
  rcases hcmds : job.cmdsOf x with _ | ⟨c, _ | ⟨c', _ | ⟨c'', rest⟩⟩⟩
  · exact absurd hcmds hne
  · rw [hcmds] at hprogress
    exact hprogress.2.1
  · rw [hcmds] at hprogress hadds
    have hremove := hprogress.1
    rw [hadds c List.mem_cons_self] at hremove
    cases hremove
  · rw [hcmds] at hprogress
    cases hprogress

end

/-! ## Runs -/

variable [DecidableEq π]

/-- A step, and what it adds to the log. -/
def stepLogged (text : QueueMessage π → String) : World π × Log → Act π → World π × Log :=
  withHistory (World.step text) note

section

variable {q : World π × Log} {x : String} {i : ℕ} {a : Act π}

section

variable (h : Tracked q x) {now : ℤ}
include h

theorem Tracked.stepCall {op : Op π} (horderly : Orderly text q (.call i op)) :
    Tracked (stepLogged text q (.call i op)) x := by
  show Tracked (q.1.step text (.call i op), note q.2 q.1 (.call i op) _) x
  cases hi : q.1.clients i with
  | some client =>
    simp only [World.step, note, hi, Option.isNone_some, Bool.false_eq_true, if_false]
    exact h
  | none =>
    obtain ⟨hnodup, hunused⟩ := horderly hi
    simp only [note, hi, Option.isNone_none, if_true]
    rcases World.step_call hi with ⟨henqueues, hstep⟩ | ⟨client, hclient, hstep⟩
    · rw [hstep]
      exact h.call hi henqueues hnodup hunused rfl
    · rw [hstep]
      refine h.leave hclient rfl ⟨rfl, rfl, rfl, rfl, rfl, h.accepted,
        fun hused => (Bool.or_eq_false_iff.mp hused).1⟩ fun job hi' => ?_
      rw [hi] at hi'
      cases hi'

theorem Tracked.stepRead {error : Option String}
    (horderly : Orderly text q (.read i now error)) :
    Tracked (stepLogged text q (.read i now error)) x := by
  show Tracked (q.1.step text (.read i now error), q.2) x
  by_cases hasked : ∃ op, q.1.clients i = some (.asked op)
  · obtain ⟨op, hi⟩ := hasked
    rcases World.step_read hi now error with ⟨rfl, hstep⟩ | ⟨client, hclient, hstep⟩
    · rw [hstep]
      exact h.read hi now (horderly op hi)
    · rw [hstep]
      refine h.leave hclient rfl ⟨rfl, rfl, rfl, rfl, rfl, h.accepted, id⟩ fun job hi' => ?_
      rw [hi] at hi'
      cases hi'
  · have hstep : q.1.step text (.read i now error) = q.1 := by
      simp only [World.step]
      split
      · next op hi => exact absurd ⟨op, hi⟩ hasked
      · rfl
    rw [hstep]
    exact h

theorem Tracked.stepExec {ok : Bool}
    (horderly : Orderly text q (.exec i now ok)) :
    Tracked (stepLogged text q (.exec i now ok)) x := by
  show Tracked (q.1.step text (.exec i now ok), note q.2 q.1 (.exec i now ok) _) x
  by_cases hworking : ∃ job c rest, q.1.clients i = some (.working job) ∧ job.cmds = c :: rest
  · obtain ⟨job, c, rest, hi, hcmds⟩ := hworking
    rw [World.step_exec hi hcmds]
    simp only [note, hi, hcmds]
    have hallowed : ok = false → job.kind = .settle ∨ job.kind = .enqueue true := by
      rintro rfl
      refine horderly job hi ?_
      rw [hcmds]
      exact List.cons_ne_nil c rest
    by_cases hx : c.id = x
    · subst hx
      have hids : c.id ∈ job.ids := by
        apply h.named i job hi
        simp [Job.cmdsOf, hcmds]
      rcases job.kind.trichotomy with henqueues | hmoves | hsettle
      · refine h.execEnqueue hi hcmds hids henqueues fun hok => ?_
        exact (hallowed hok).resolve_left (Kind.ne_of_enqueues henqueues).2
      · have hok : ok = true := by
          by_contra hfails
          rcases hallowed (Bool.eq_false_of_not_eq_true hfails) with hkind | hkind <;>
            rw [hkind] at hmoves <;> cases hmoves
        subst hok
        exact h.execMove hi hcmds hids hmoves
      · exact h.execSettle hi hcmds hids hsettle
    · exact h.execOther hi hcmds hx
  · -- There is no command to execute.
    have hnothing : q.1.step text (.exec i now ok) = q.1 ∧
        ∀ w, note q.2 q.1 (.exec i now ok) w = q.2 := by
      cases hi : q.1.clients i with
      | none => simp only [World.step, note, hi, implies_true, and_self]
      | some client =>
        cases client with
        | working job =>
          cases hcmds : job.cmds with
          | nil => simp only [World.step, note, hi, hcmds, implies_true, and_self]
          | cons c rest => exact absurd ⟨job, c, rest, hi, hcmds⟩ hworking
        | _ => simp only [World.step, note, hi, implies_true, and_self]
    rw [hnothing.1, hnothing.2]
    exact h

theorem Tracked.stepFinish (e : String) : Tracked (stepLogged text q (.finish i e)) x := by
  show Tracked (q.1.step text (.finish i e), note q.2 q.1 (.finish i e) _) x
  cases hi : q.1.clients i with
  | none =>
    simp only [World.step, note, hi]
    exact h
  | some client =>
    cases client with
    | working job =>
      by_cases hcmds : job.cmds = []
      · simp only [World.step, note, hi, hcmds, List.isEmpty_nil, if_true]
        exact h.finish hi hcmds q.1.clock (job.answer e)
      · simp only [World.step, note, hi, List.isEmpty_iff, hcmds, if_false]
        exact h
    | _ =>
      simp only [World.step, note, hi]
      exact h

/-- The invariant is kept by every orderly step. -/
theorem Tracked.step (horderly : Orderly text q a) : Tracked (stepLogged text q a) x := by
  cases a with
  | call i op => exact h.stepCall horderly
  | read i now error => exact h.stepRead horderly
  | exec i now ok => exact h.stepExec horderly
  | finish i e => exact h.stepFinish e
  | stop i =>
    show Tracked (q.1.step text (.stop i), q.2) x
    cases hi : q.1.clients i with
    | none =>
      simp only [World.step, hi]
      exact h
    | some client =>
      simp only [World.step, hi]
      exact h.leave (fun job hw => by cases hw) rfl ⟨rfl, rfl, rfl, rfl, rfl, h.accepted, id⟩
        fun job hi' hb => horderly job x hi' hb
  | elapse nanos =>
    exact h.frame ⟨rfl, rfl, rfl, rfl, rfl, h.accepted, id⟩
      (fun i job hi _ => ⟨job, hi, rfl, rfl, rfl, id⟩) h.lone fun i job hi hb _ => ⟨job, hi, hb⟩

end

end

/-- In an orderly run no message is lost but while a client is between its removal and its addition,
none is in two sets, and none is returned twice. -/
theorem kept_iff (text : QueueMessage π → String) (now : ℤ) (as : List (Act π))
    (horderly : Along (stepLogged text) (Orderly text) (World.init now, Log.empty) as) :
    let q := run (stepLogged text) (World.init now, Log.empty) as
    Kept q ↔ ∀ i job x, q.1.clients i = some (.working job) → job.between x →
      q.2.accepted x = true → q.2.settled x = true := by
  intro q
  have h : ∀ x, Tracked q x := invariant_along (stepLogged text)
    (I := fun q => ∀ x, Tracked q x) (fun _ _ h ha x => (h x).step ha)
    (fun x => Tracked.init now x) horderly
  constructor
  · intro hkept i job x hi hb haccepted
    by_contra hfree
    exact hkept.somewhere x haccepted (Bool.eq_false_of_not_eq_true hfree)
      ((h x).held_of_between hi hb)
  · intro hnone
    constructor
    · intro x haccepted hfree
      refine (h x).kept ((h x).accepted haccepted) hfree fun i job hi hb => ?_
      rw [hnone i job x hi hb haccepted] at hfree
      cases hfree
    · intro x haccepted hfree hothers
      have hne := (h x).kept ((h x).accepted haccepted) hfree fun i job hi hb =>
        hothers i job hi ((h x).named i job hi hb.2.1)
      have hpos := List.length_pos_of_ne_nil hne
      have hone := (h x).one
      omega
    · exact fun x => (h x).once

/-- A message; the queue is empty in 2001, and any text will do for one message. -/
def order : QueueMessage String := ⟨"m-1", "order", .low, 0, 2, 0, 30, .pending⟩

/-- It is enqueued by the client `0`. -/
def enqueueOrder : List (Act String) := [.call 0 (.enqueue order), .exec 0 0 true, .finish 0 ""]

/-- The client dequeues what there is. -/
def dequeueBy (i : ℕ) : List (Act String) :=
  [.call i .dequeue, .read i 2000000000000000000 none, .exec i 0 true, .exec i 0 true, .finish i ""]

/-- A message that is dequeued, nacked and dequeued again. -/
theorem kept_iff_retried :
    let q := run (stepLogged QueueMessage.payload) (World.init 1000000000000000000, Log.empty)
      (enqueueOrder ++ dequeueBy 1 ++
        [.call 2 (.nack "m-1" none), .read 2 0 none, .exec 2 0 true,
          .exec 2 1000000000000000000 true, .finish 2 "", .elapse 1000000000000] ++ dequeueBy 3)
    q.2.accepted "m-1" = true ∧ (q.2.out "m-1").isSome = true ∧
      (q.1.held "m-1").map (·.1) = [.processing] ∧ Kept q := by
  refine ⟨rfl, rfl, rfl, (kept_iff _ _ _ ?_).mpr ?_⟩
  · refine ⟨fun _ => ⟨List.nodup_singleton _, fun _ _ => rfl⟩, trivial, trivial,
      fun _ => ⟨List.nodup_nil, fun m hm => by cases hm⟩, ?_, trivial, trivial, trivial,
      fun _ => ⟨List.nodup_nil, fun m hm => by cases hm⟩, ?_, trivial, trivial, trivial, trivial,
      fun _ => ⟨List.nodup_nil, fun m hm => by cases hm⟩, ?_, trivial, trivial, trivial, trivial⟩
    · rintro op - - m - j job hj -
      rcases j with _ | _ | j <;> cases hj
    · rintro op - - m - j job hj -
      rcases j with _ | _ | _ | j <;> cases hj
    · rintro op - - m - j job hj -
      rcases j with _ | _ | _ | _ | j <;> cases hj
  · intro i job x hi
    rcases i with _ | _ | _ | _ | i <;> cases hi

/-- A message is lost when the client that dequeues it stops after the removal, and two clients that
read the same head both return it. -/
theorem not_kept :
    ¬ Kept (run (stepLogged QueueMessage.payload) (World.init 1000000000000000000, Log.empty)
      (enqueueOrder ++ (dequeueBy 1).take 3 ++ [.stop 1])) ∧
    ¬ Kept (run (stepLogged QueueMessage.payload) (World.init 1000000000000000000, Log.empty)
      (enqueueOrder ++ (dequeueBy 1).take 2 ++ dequeueBy 2 ++ (dequeueBy 1).drop 2)) := by
  constructor
  · intro hkept
    exact hkept.somewhere "m-1" rfl rfl rfl
  · intro hkept
    have hapart := hkept.apart "m-1"
    cases hapart

end Backbone.Queue.Redis
