import Backbone.Queue.Redis

/-!
# Where the messages of a Redis queue are

The runs of the queue with a log of what happened to each message, the sets that hold a message, what
a command does to them and what an operation finds there.

Reference: `backbone-queue/src/redis.rs`.
-/

namespace Backbone.Queue.Redis

open Machine

variable {π : Type} {kind : Kind} {w : World π}

def Kind.enqueues : Kind → Bool
  | .enqueue _ => true
  | _ => false

def Kind.dequeues : Kind → Bool
  | .dequeue _ => true
  | _ => false

/-- The operation moves messages between the sets. -/
def Kind.moves : Kind → Bool
  | .dequeue _ | .nack => true
  | _ => false

theorem Kind.trichotomy (kind : Kind) : kind.enqueues = true ∨ kind.moves = true ∨ kind = .settle := by
  cases kind with
  | enqueue batch => exact .inl rfl
  | dequeue batch => exact .inr (.inl rfl)
  | nack => exact .inr (.inl rfl)
  | settle => exact .inr (.inr rfl)

theorem Kind.moves_of_dequeues (h : kind.dequeues = true) : kind.moves = true := by
  cases kind with
  | dequeue batch => rfl
  | _ => cases h

theorem Kind.enqueues_of_moves (h : kind.moves = true) : kind.enqueues = false := by
  cases kind with
  | enqueue batch => cases h
  | dequeue batch => rfl
  | nack => rfl
  | settle => rfl

theorem Kind.moves_of_enqueues (h : kind.enqueues = true) : kind.moves = false := by
  cases kind with
  | enqueue batch => rfl
  | dequeue batch => cases h
  | nack => cases h
  | settle => cases h

theorem Kind.ne_of_enqueues (h : kind.enqueues = true) :
    kind.dequeues = false ∧ kind ≠ .settle := by
  cases kind with
  | enqueue batch => exact ⟨rfl, fun hsettle => by cases hsettle⟩
  | dequeue batch => cases h
  | nack => cases h
  | settle => cases h

/-- The messages that the operation works on. -/
def Job.ids (job : Job π) : List String := job.found.map (·.id)

/-- The commands left for the message. -/
def Job.cmdsOf (job : Job π) (x : String) : List (Cmd π) := job.cmds.filter fun c => c.id = x

/-- The message is removed from one set and not added to the other yet. -/
def Job.between (job : Job π) (x : String) : Prop :=
  job.kind.moves = true ∧ job.cmdsOf x ≠ [] ∧ ∀ c ∈ job.cmdsOf x, c.isRemove = false

/-- The pipeline has failed. -/
def Job.fails (job : Job π) : Bool :=
  match job.kind with
  | .enqueue batch | .dequeue batch => batch && job.failed
  | _ => false

/-- What happened to the messages. -/
structure Log where
  /-- An operation was asked to enqueue it. -/
  used : String → Bool
  /-- It was added to the queue. -/
  stored : String → Bool
  /-- The operation that enqueues it answered `Ok`. -/
  accepted : String → Bool
  /-- An `ack` or a `delete` that found it has sent its command. -/
  settled : String → Bool
  /-- Until when the message that a dequeue returned is invisible, unless it was nacked since. -/
  out : String → Option ℤ
  /-- A dequeue returned it while it was invisible. -/
  twice : String → Bool

namespace Log

def empty : Log :=
  ⟨fun _ => false, fun _ => false, fun _ => false, fun _ => false, fun _ => none, fun _ => false⟩

def executed (h : Log) (kind : Kind) (x : String) (ok : Bool) : Log :=
  { h with
    stored := fun y => h.stored y || (kind.enqueues && ok && y = x)
    settled := fun y => h.settled y || (kind = .settle && y = x)
    out := fun y => if kind = .nack ∧ y = x then none else h.out y }

def returned (now : ℤ) (h : Log) (m : QueueMessage π) : Log :=
  { h with
    out := fun y =>
      if y = m.id then some (now + m.visibilityTimeout * 1000000000) else h.out y
    twice := fun y => h.twice y || (y = m.id && (h.out y).any (now < ·)) }

def finished (h : Log) (now : ℤ) (job : Job π) : Log :=
  if job.fails then h
  else if job.kind.enqueues then
    { h with accepted := fun y => h.accepted y || job.ids.contains y }
  else if job.kind.dequeues then job.found.foldl (returned now) h
  else h

end Log

def note (h : Log) (w : World π) (a : Act π) (_ : World π) : Log :=
  match a with
  | .call i op =>
    if (w.clients i).isNone then
      { h with used := fun y => h.used y || (op.given.map (·.id)).contains y }
    else h
  | .exec i _ ok =>
    match w.clients i with
    | some (.working job) =>
      match job.cmds with
      | c :: _ => h.executed job.kind c.id ok
      | [] => h
    | _ => h
  | .finish i _ =>
    match w.clients i with
    | some (.working job) => if job.cmds.isEmpty then h.finished w.clock job else h
    | _ => h
  | _ => h

/-- Where the message is: the sets and their members of this id. -/
def World.held (w : World π) (x : String) : List (Place × QueueMessage π) :=
  [Place.queue, .processing, .deadLetter].flatMap fun place =>
    (((w.sets place).map (·.1)).filter fun m => m.id = x).map fun m => (place, m)

variable {text : QueueMessage π → String} {x : String}

/-! ## What an operation finds -/

theorem mem_held {e : Place × QueueMessage π} :
    e ∈ w.held x ↔ (∃ score, (e.2, score) ∈ w.sets e.1) ∧ e.2.id = x := by
  obtain ⟨place, m⟩ := e
  simp only [World.held, List.mem_flatMap, List.mem_cons, List.not_mem_nil, or_false, List.mem_map,
    List.mem_filter, decide_eq_true_eq, Prod.mk.injEq, Prod.exists]
  constructor
  · rintro ⟨place', -, m', ⟨⟨m'', score, hmem, rfl⟩, hx⟩, rfl, rfl⟩
    exact ⟨⟨score, hmem⟩, hx⟩
  · rintro ⟨⟨score, hmem⟩, hx⟩
    exact ⟨place, by cases place <;> simp, m, ⟨⟨m, score, hmem, rfl⟩, hx⟩, rfl, rfl⟩

section Finds

variable {w : World π} {op : Op π} {now : ℤ} {x : String} {m : QueueMessage π}
  {ms : List (QueueMessage π)} {z : ZSet π}

/-- The set that an operation reads. -/
def Op.reads : Op π → Place
  | .ack _ | .nack _ _ | .delete _ => .processing
  | _ => .queue

theorem mem_zrange : m ∈ z.zrange text ↔ ∃ score, (m, score) ∈ z := by
  simp only [ZSet.zrange, List.mem_map, List.mem_insertionSort, Prod.exists, exists_and_right,
    exists_eq_right]

theorem mem_of_mem_zrangebyscore {max : ℤ} {limit : ℕ}
    (h : m ∈ z.zrangebyscore text max limit) : ∃ score, (m, score) ∈ z := by
  obtain ⟨score, hscore⟩ := mem_zrange.mp (List.mem_of_mem_take h)
  exact ⟨score, List.mem_of_mem_filter hscore⟩

/-- What is found is where the operation reads. -/
theorem mem_held_of_finds (h : m ∈ w.finds text now op) : (op.reads, m) ∈ w.held m.id := by
  refine mem_held.mpr ⟨?_, rfl⟩
  cases op with
  | dequeue => exact mem_of_mem_zrangebyscore h
  | dequeueBatch maxMessages => exact mem_of_mem_zrangebyscore h
  | ack id => exact mem_zrange.mp (List.mem_of_find?_eq_some (Option.mem_toList.mp h))
  | nack id delaySeconds => exact mem_zrange.mp (List.mem_of_find?_eq_some (Option.mem_toList.mp h))
  | delete id => exact mem_zrange.mp (List.mem_of_find?_eq_some (Option.mem_toList.mp h))
  | deleteQueued id => exact mem_zrange.mp (List.mem_of_find?_eq_some (Option.mem_toList.mp h))
  | enqueue m' => cases h
  | enqueueBatch ms => cases h

theorem countP_zrange (z : ZSet π) (f : QueueMessage π → Bool) :
    (z.zrange text).countP f = (z.map (·.1)).countP f :=
  ((List.perm_insertionSort _ z).map _).countP_eq f

theorem countP_members_le (place : Place) (x : String) :
    ((w.sets place).map (·.1)).countP (fun m => decide (m.id = x)) ≤ (w.held x).length := by
  have hlength : (w.held x).length =
      ((w.sets .queue).map (·.1)).countP (fun m => decide (m.id = x)) +
        (((w.sets .processing).map (·.1)).countP (fun m => decide (m.id = x)) +
          ((w.sets .deadLetter).map (·.1)).countP fun m => decide (m.id = x)) := by
    simp [World.held, List.countP_eq_length_filter]
  cases place <;> omega

/-- A message is found once when it is held once. -/
theorem countP_finds_le (hone : (w.held x).length ≤ 1) :
    (w.finds text now op).countP (fun m => decide (m.id = x)) ≤ 1 := by
  have hscored : ∀ limit max, ((w.sets .queue).zrangebyscore text max limit).countP
      (fun m => decide (m.id = x)) ≤ 1 := by
    intro limit max
    refine ((List.take_sublist _ _).countP_le).trans ?_
    rw [countP_zrange]
    exact (((List.filter_sublist).map _).countP_le).trans ((countP_members_le .queue x).trans hone)
  have hoption : ∀ o : Option (QueueMessage π), o.toList.countP (fun m => decide (m.id = x)) ≤ 1 := by
    intro o
    refine List.countP_le_length.trans ?_
    cases o <;> simp
  cases op with
  | dequeue => exact hscored _ _
  | dequeueBatch maxMessages => exact hscored _ _
  | ack id => exact hoption _
  | nack id delaySeconds => exact hoption _
  | delete id => exact hoption _
  | deleteQueued id => exact hoption _
  | enqueue m' => exact Nat.zero_le 1
  | enqueueBatch ms => exact Nat.zero_le 1

theorem filter_eq_singleton (hm : m ∈ ms) (hcount : ms.countP (fun m' => decide (m'.id = m.id)) ≤ 1) :
    ms.filter (fun m' => decide (m'.id = m.id)) = [m] := by
  rw [List.countP_eq_length_filter] at hcount
  have hmem : m ∈ ms.filter fun m' => decide (m'.id = m.id) := List.mem_filter.mpr ⟨hm, by simp⟩
  generalize ms.filter (fun m' => decide (m'.id = m.id)) = found at hmem hcount ⊢
  rcases found with _ | ⟨m', _ | ⟨m'', rest⟩⟩
  · cases hmem
  · rw [List.mem_singleton.mp hmem]
  · simp at hcount

theorem Op.id_of_mem_cmds {c : Cmd π} (h : c ∈ op.cmds m) : c.id = m.id := by
  cases op with
  | nack id delaySeconds =>
    simp only [cmds, List.mem_cons, List.not_mem_nil, or_false] at h
    rcases h with rfl | rfl
    · rfl
    · split <;> rfl
  | _ =>
    simp only [cmds, List.mem_cons, List.not_mem_nil, or_false] at h
    first
      | (obtain rfl := h; rfl)
      | (rcases h with rfl | rfl <;> rfl)

/-- The commands for a message are those of the messages of its id. -/
theorem cmdsOf_job (ms : List (QueueMessage π)) (x : String) :
    (op.job ms).cmdsOf x = (ms.filter fun m => decide (m.id = x)).flatMap op.cmds := by
  simp only [Job.cmdsOf, Op.job, List.filter_flatMap]
  induction ms with
  | nil => rfl
  | cons m ms ih =>
    have hcmds : (op.cmds m).filter (fun c => decide (c.id = x)) =
        if m.id = x then op.cmds m else [] := by
      split
      · next hx =>
        refine List.filter_eq_self.mpr fun c hc => ?_
        rw [Op.id_of_mem_cmds hc]
        exact decide_eq_true hx
      · next hx =>
        refine List.filter_eq_nil_iff.mpr fun c hc => ?_
        rw [Op.id_of_mem_cmds hc]
        simpa using hx
    rw [List.flatMap_cons, ih, hcmds, List.filter_cons]
    by_cases hx : m.id = x <;> simp [hx]

theorem cmdsOf_job_of_not_mem (hx : x ∉ ms.map (·.id)) : (op.job ms).cmdsOf x = [] := by
  rw [cmdsOf_job, List.filter_eq_nil_iff.mpr]
  · rfl
  · intro m hm hid
    exact hx (List.mem_map.mpr ⟨m, hm, by simpa using hid⟩)

theorem cmdsOf_job_of_mem (hm : m ∈ ms) (hcount : ms.countP (fun m' => decide (m'.id = m.id)) ≤ 1) :
    (op.job ms).cmdsOf m.id = op.cmds m := by
  rw [cmdsOf_job, filter_eq_singleton hm hcount]
  simp

end Finds

/-! ## The sets -/

theorem Cmd.id_member (c : Cmd π) (now : ℤ) : (c.member now).id = c.id := by
  cases c <;> rfl

variable [DecidableEq π] {c : Cmd π}

theorem members_zrem (z : ZSet π) (m : QueueMessage π) :
    (z.zrem m).map (·.1) = (z.map (·.1)).filter fun m' => m' ≠ m := by
  rw [ZSet.zrem, List.filter_map]
  rfl

theorem members_zadd (z : ZSet π) (m : QueueMessage π) (score : ℤ) :
    (z.zadd m score).map (·.1) = ((z.map (·.1)).filter fun m' => m' ≠ m) ++ [m] := by
  rw [ZSet.zadd, List.map_append, List.filter_map]
  rfl

/-- The sets after a command was executed. -/
def World.after (w : World π) (c : Cmd π) (now : ℤ) : World π :=
  { w with sets := Function.update w.sets c.place (c.exec now (w.sets c.place)) }

/-- A set holds what it did of other messages. -/
theorem filter_exec_of_ne (hx : c.id ≠ x) (now : ℤ) (z : ZSet π) :
    (((c.exec now z).map (·.1)).filter fun m => m.id = x) =
      (z.map (·.1)).filter fun m => m.id = x := by
  have hne : ∀ m' : QueueMessage π, m'.id = c.id → ((z.map (·.1)).filter fun m => m ≠ m').filter
      (fun m => m.id = x) = (z.map (·.1)).filter fun m => m.id = x := by
    intro m' hm'
    rw [List.filter_filter]
    refine List.filter_congr fun m _ => ?_
    by_cases hm : m.id = x
    · have hmm' : m ≠ m' := by
        rintro rfl
        exact hx (hm'.symm.trans hm)
      simp [hm, hmm']
    · simp [hm]
  unfold Cmd.exec
  split
  · rw [members_zrem]
    exact hne _ rfl
  · rw [members_zadd, List.filter_append, hne _ (c.id_member now)]
    have hother : (c.member now).id ≠ x := by
      rw [c.id_member]
      exact hx
    simp [hother]

theorem held_after_of_ne (hx : c.id ≠ x) (now : ℤ) : (w.after c now).held x = w.held x := by
  unfold World.held
  congr 1
  funext place
  by_cases hplace : place = c.place
  · subst hplace
    simp only [World.after, Function.update_self, filter_exec_of_ne hx]
  · simp only [World.after, Function.update_of_ne hplace]

/-- A removal removes the member from its set. -/
theorem held_after_remove (hc : c.isRemove = true) (x : String) (now : ℤ) :
    (w.after c now).held x = (w.held x).filter fun e => e ≠ (c.place, c.message) := by
  unfold World.held
  rw [List.filter_flatMap]
  congr 1
  funext place
  have hpairs : ∀ ms : List (QueueMessage π),
      ((ms.map fun m => (place, m)).filter fun e => e ≠ (c.place, c.message)) =
        (ms.filter fun m => (place, m) ≠ (c.place, c.message)).map fun m => (place, m) :=
    fun ms => List.filter_map
  rw [hpairs, List.filter_filter]
  by_cases hplace : place = c.place
  · subst hplace
    simp only [World.after, Function.update_self, Cmd.exec, hc, if_true, members_zrem,
      List.filter_filter]
    congr 1
    refine List.filter_congr fun m _ => ?_
    simp [Bool.and_comm]
  · simp only [World.after, Function.update_of_ne hplace]
    congr 1
    refine List.filter_congr fun m _ => ?_
    simp [hplace]

/-- An addition of a message that is nowhere puts it in its set. -/
theorem held_after_add (hc : c.isRemove = false) (hnone : w.held c.id = []) (now : ℤ) :
    (w.after c now).held c.id = [(c.place, c.member now)] := by
  have hempty : ∀ place, ((w.sets place).map (·.1)).filter (fun m => decide (m.id = c.id)) = [] := by
    intro place
    rw [List.filter_eq_nil_iff]
    intro m hm hid
    obtain ⟨e, he, rfl⟩ := List.mem_map.mp hm
    have hmem : (place, e.1) ∈ w.held c.id := mem_held.mpr ⟨⟨e.2, he⟩, by simpa using hid⟩
    rw [hnone] at hmem
    cases hmem
  have hplace : ∀ place, (((w.after c now).sets place).map (·.1)).filter
      (fun m => decide (m.id = c.id)) = if place = c.place then [c.member now] else [] := by
    intro place
    by_cases hplace : place = c.place
    · subst hplace
      have hid := c.id_member now
      simp only [World.after, Function.update_self, Cmd.exec, hc, Bool.false_eq_true, if_false,
        members_zadd, List.filter_append, if_true]
      rw [List.filter_filter, List.filter_eq_nil_iff.mpr]
      · simp [hid]
      · intro m hm hboth
        have hnotin := List.filter_eq_nil_iff.mp (hempty c.place) m hm
        simp only [Bool.and_eq_true] at hboth
        exact hnotin hboth.1
    · simp only [World.after, Function.update_of_ne hplace, hempty place, if_neg hplace]
  simp only [World.held, hplace]
  cases c.place <;> rfl

end Backbone.Queue.Redis
