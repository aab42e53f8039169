import Backbone.Queue.RedisOrder

/-!
# Redelivery

What becomes of a message that one consumer dequeues and does not acknowledge. A delivery is to be
counted in the stored copy, to come back when it is neither acknowledged nor given back within the
visibility timeout, and to end in the dead letters at the last of the allowed deliveries. `dequeue`
moves the text of the message as it is, only `nack` gives back what is in processing, and `nack` looks
at a count that nobody raises.

Reference: `backbone-queue/src/redis.rs` and `backbone-queue/src/types.rs`.
-/

namespace Backbone.Queue.Redis

open Machine

variable {π : Type}

/-- The turn hands a message of the id in. -/
def Turn.gives (x : String) : Turn π → Bool
  | .perform op => (op.given.map (·.id)).contains x
  | .elapse _ => false

/-- The turn is a `dequeue`, of one or of many, or time passes. -/
def Turn.waits : Turn π → Bool
  | .perform op => op.kind.dequeues
  | .elapse _ => true

namespace Store

def init (now : ℤ) : Store π := ⟨fun _ => [], now⟩

/-- The sets as those of a world without clients. -/
def world (s : Store π) : World π := ⟨s.sets, fun _ => none, s.clock⟩

/-- Where the message is. -/
def held (s : Store π) (x : String) : List (Place × QueueMessage π) := s.world.held x

/-- The turn returns the message. -/
def delivers (text : QueueMessage π → String) (s : Store π) (x : String) : Turn π → Bool
  | .perform op => op.kind.dequeues && (s.finds text op).any fun d => d.id = x
  | .elapse _ => false

end Store

section Claims

variable [DecidableEq π] (text : QueueMessage π → String)

/-- The deliveries of the message in a run. -/
def deliveries (x : String) : Store π → List (Turn π) → ℕ
  | _, [] => 0
  | s, t :: ts => (s.delivers text x t).toNat + deliveries x (s.step text t) ts

variable (m : QueueMessage π)

/-- The store of a run that enqueues the message, once. -/
def history (now : ℤ) (before after : List (Turn π)) : Store π :=
  run (Store.step text) (Store.init now) (before ++ .perform (.enqueue m) :: after)

/-- Each delivery raises the count of the stored copy by one. -/
def Counted : Prop :=
  ∀ now before after, (∀ t ∈ before ++ after, t.gives m.id = false) →
    ∀ d, (history text m now before after).dequeued text = some d → d.id = m.id →
      ∀ e ∈ ((history text m now before after).step text (.perform .dequeue)).held m.id,
        e.2.receiveCount = d.receiveCount + 1

/-- A delivery that is not settled for the visibility timeout can be dequeued again. -/
def Returned : Prop :=
  ∀ now before after, (∀ t ∈ before ++ after, t.gives m.id = false) →
    ∀ d, (history text m now before after).dequeued text = some d → d.id = m.id →
      ∀ nanos : ℕ, m.visibilityTimeout * 1000000000 ≤ nanos →
        ∃ ts : List (Turn π), (∀ t ∈ ts, t.waits = true) ∧
          ∃ d', (run (Store.step text) (history text m now before after)
              (.perform .dequeue :: .elapse nanos :: ts)).dequeued text = some d' ∧ d'.id = m.id

/-- A `nack` of the last allowed delivery moves the message to the dead letters, and no dequeue
returns it any more. -/
def Buried : Prop :=
  ∀ now before after, (∀ t ∈ before ++ after, t.gives m.id = false) →
    deliveries text m.id (history text m now before []) after = m.maxReceiveCount →
      ∀ d, (Place.processing, d) ∈ (history text m now before after).held m.id →
        ∀ delaySeconds,
          let s' := (history text m now before after).step text (.perform (.nack m.id delaySeconds))
          (∃ d', (Place.deadLetter, d') ∈ s'.held m.id) ∧
            ∀ ts : List (Turn π), (∀ t ∈ ts, t.gives m.id = false) →
              ∀ t, (run (Store.step text) s' ts).delivers text m.id t = false

end Claims

/-! ## Where a message is -/

section Puts

variable {op : Op π} {m : QueueMessage π}

/-- Where an operation puts the message that it takes from where it reads. -/
def Op.puts (now : ℤ) (op : Op π) (m : QueueMessage π) : List (Place × QueueMessage π) :=
  (op.cmds m).tail.map fun c => (c.place, c.member now)

theorem Op.eq_of_mem_puts {now : ℤ} (op : Op π) {e : Place × QueueMessage π}
    (he : e ∈ op.puts now m) :
    e.2.receiveCount = m.receiveCount ∧ e.2.maxReceiveCount = m.maxReceiveCount := by
  cases op with
  | nack id delaySeconds =>
    simp only [Op.puts, Op.cmds, List.tail_cons, List.map_cons, List.map_nil,
      List.mem_singleton] at he
    subst he
    split <;> exact ⟨rfl, rfl⟩
  | dequeue => exact (List.mem_singleton.mp he) ▸ ⟨rfl, rfl⟩
  | dequeueBatch maxMessages => exact (List.mem_singleton.mp he) ▸ ⟨rfl, rfl⟩
  | _ => cases he

theorem Op.length_puts (now : ℤ) (op : Op π) (m : QueueMessage π) : (op.puts now m).length ≤ 1 := by
  cases op <;> simp [Op.puts, Op.cmds]

theorem Op.reads_ne_deadLetter (op : Op π) : op.reads ≠ .deadLetter := by
  cases op <;> rintro ⟨⟩

end Puts

section Held

variable [DecidableEq π] {text : QueueMessage π → String} {s : Store π} {x : String}
  {op : Op π} {m : QueueMessage π}

theorem held_foldl_of_ne {cs : List (Cmd π)} (h : ∀ c ∈ cs, c.id ≠ x) :
    (cs.foldl Store.exec s).held x = s.held x := by
  induction cs generalizing s with
  | nil => rfl
  | cons c cs ih =>
    rw [List.foldl_cons, ih fun c' hc' => h c' (List.mem_cons_of_mem _ hc')]
    exact held_after_of_ne (w := s.world) (h c List.mem_cons_self) s.clock

theorem held_removed {place : Place} {d : QueueMessage π} (hheld : s.held d.id = [(place, d)]) :
    (s.exec (.remove place d)).held d.id = [] := by
  refine (held_after_remove (w := s.world) (c := .remove place d) rfl d.id s.clock).trans ?_
  show (s.held d.id).filter _ = []
  rw [hheld]
  simp [Cmd.place, Cmd.message]

/-- The commands for a message that is held once, where the operation reads. -/
theorem held_foldl_cmds (hop : op.kind.enqueues = false) (hheld : s.held m.id = [(op.reads, m)]) :
    ((op.cmds m).foldl Store.exec s).held m.id = op.puts s.clock m := by
  have hremoved := held_removed hheld
  rcases op.kind.trichotomy with henqueues | hmoves | hsettle
  · rw [hop] at henqueues
    cases henqueues
  · obtain ⟨c, hcmds, hadds, -⟩ := op.cmds_of_moves m hmoves
    have hid : c.id = m.id := op.id_of_mem_cmds (by rw [hcmds]; simp)
    rw [← hid] at hremoved
    rw [Op.puts, hcmds, ← hid]
    exact held_after_add (w := (s.exec (.remove op.reads m)).world) hadds hremoved s.clock
  · rw [Op.puts, op.cmds_of_settle m hsettle]
    exact hremoved

variable (text) in
/-- What the commands for the messages found do to one of them. -/
theorem held_foldl_finds (hone : (s.held x).length ≤ 1) :
    let s' := ((s.finds text op).flatMap op.cmds).foldl Store.exec s
    s'.held x = s.held x ∧ (∀ m ∈ s.finds text op, m.id ≠ x) ∨
      ∃ m ∈ s.finds text op, m.id = x ∧ s.held x = [(op.reads, m)] ∧
        s'.held x = op.puts s.clock m := by
  intro s'
  by_cases hfound : ∃ m ∈ s.finds text op, m.id = x
  · obtain ⟨m, hm, rfl⟩ := hfound
    have hop : op.kind.enqueues = false := Op.enqueues_of_mem_finds (w := s.world) hm
    have hmem : (op.reads, m) ∈ s.held m.id := mem_held_of_finds (w := s.world) hm
    have hheld : s.held m.id = [(op.reads, m)] := by
      rcases h : s.held m.id with _ | ⟨e, _ | ⟨e', rest⟩⟩
      · rw [h] at hmem
        cases hmem
      · rw [h] at hmem
        rw [List.mem_singleton.mp hmem]
      · simp [h] at hone
    have hcount : (s.finds text op).countP (fun m' => decide (m'.id = m.id)) ≤ 1 :=
      countP_finds_le (w := s.world) hone
    -- The other messages found have other ids.
    obtain ⟨before, after, hsplit⟩ := List.append_of_mem hm
    rw [hsplit, List.countP_append, List.countP_cons_of_pos (by simp)] at hcount
    have hothers : ∀ ms : List (QueueMessage π), ms.countP (fun m' => decide (m'.id = m.id)) = 0 →
        ∀ c ∈ ms.flatMap op.cmds, c.id ≠ m.id := by
      intro ms hms c hc hid
      obtain ⟨m', hm', hc⟩ := List.mem_flatMap.mp hc
      rw [Op.id_of_mem_cmds hc] at hid
      exact List.countP_eq_zero.mp hms m' hm' (by simpa using hid)
    have hbefore := held_foldl_of_ne (s := s) (hothers before (by omega))
    refine .inr ⟨m, hm, rfl, hheld, ?_⟩
    show (((s.finds text op).flatMap op.cmds).foldl Store.exec s).held m.id = _
    rw [hsplit, List.flatMap_append, List.flatMap_cons, List.foldl_append, List.foldl_append,
      held_foldl_of_ne (hothers after (by omega)), held_foldl_cmds hop (hbefore.trans hheld),
      Store.clock_foldl_exec]
  · have hnone : ∀ m ∈ s.finds text op, m.id ≠ x := fun m hm hid => hfound ⟨m, hm, hid⟩
    refine .inl ⟨held_foldl_of_ne fun c hc => ?_, hnone⟩
    obtain ⟨m, hm, hc⟩ := List.mem_flatMap.mp hc
    rw [Op.id_of_mem_cmds hc]
    exact hnone m hm

/-- The message stays where it is and is not returned, or an operation takes it from its place. -/
def Moves (text : QueueMessage π → String) (s : Store π) (x : String) (t : Turn π) : Prop :=
  (s.step text t).held x = s.held x ∧ s.delivers text x t = false ∨
    ∃ (op : Op π) (m : QueueMessage π), (t.waits = true → op.kind.dequeues = true) ∧ m.id = x ∧
      s.held x = [(op.reads, m)] ∧ (s.step text t).held x = op.puts s.clock m

/-- An operation whose commands are those of `op'` for the messages that it finds. -/
theorem moves_of_finds (hone : (s.held x).length ≤ 1) (op' : Op π)
    (hwaits : op.kind.dequeues = true → op'.kind.dequeues = true)
    (hcommands : s.commands text op = (s.finds text op').flatMap op'.cmds)
    (hdelivers : op.kind.dequeues = true → s.finds text op = s.finds text op') :
    Moves text s x (.perform op) := by
  rw [Moves, Store.step, hcommands]
  rcases held_foldl_finds text hone with ⟨hheld, hnone⟩ | ⟨m, -, hm⟩
  · refine .inl ⟨hheld, Bool.eq_false_iff.mpr fun htrue => ?_⟩
    obtain ⟨hdequeues, hany⟩ := Bool.and_eq_true_iff.mp htrue
    obtain ⟨d, hd, hid⟩ := List.any_eq_true.mp hany
    rw [hdelivers hdequeues] at hd
    exact hnone d hd (of_decide_eq_true hid)
  · exact .inr ⟨op', m, hwaits, hm⟩

/-- An operation that enqueues other messages. -/
theorem moves_of_enqueues (henqueues : op.kind.enqueues = true)
    (hgives : (Turn.perform op).gives x = false) : Moves text s x (.perform op) := by
  have hcommands : ∀ c ∈ s.commands text op, c ∈ op.given.flatMap op.cmds := by
    intro c hc
    cases op with
    | enqueue m =>
      simp only [Store.commands] at hc
      split at hc
      · exact hc
      · cases hc
    | enqueueBatch ms =>
      simp only [Store.commands] at hc
      split at hc
      · exact hc
      · cases hc
    | _ => cases henqueues
  refine .inl ⟨held_foldl_of_ne fun c hc hid => ?_, ?_⟩
  · obtain ⟨m, hm, hc⟩ := List.mem_flatMap.mp (hcommands c hc)
    rw [Op.id_of_mem_cmds hc] at hid
    have hcontains : (op.given.map (·.id)).contains x = true :=
      List.contains_iff_mem.mpr (List.mem_map.mpr ⟨m, hm, hid⟩)
    rw [show (op.given.map (·.id)).contains x = false from hgives] at hcontains
    cases hcontains
  · rw [Store.delivers, (Kind.ne_of_enqueues henqueues).1, Bool.false_and]

variable (text) in
theorem moves_of_gives (hone : (s.held x).length ≤ 1) {t : Turn π} (hgives : t.gives x = false) :
    Moves text s x t := by
  cases t with
  | elapse nanos => exact .inl ⟨rfl, rfl⟩
  | perform op =>
    cases op with
    | enqueue m => exact moves_of_enqueues rfl hgives
    | enqueueBatch ms => exact moves_of_enqueues rfl hgives
    | delete y =>
      -- `delete` goes on to the queue when processing does not hold the message.
      by_cases hempty : (s.finds text (.delete y)).isEmpty = true
      · exact moves_of_finds hone (.deleteQueued y) (fun h => by cases h)
          (by rw [Store.commands, if_pos hempty]) (fun h => by cases h)
      · exact moves_of_finds hone (.delete y) (fun h => h)
          (by rw [Store.commands, if_neg hempty]) fun _ => rfl
    | dequeue => exact moves_of_finds hone _ (fun h => h) rfl fun _ => rfl
    | dequeueBatch maxMessages => exact moves_of_finds hone _ (fun h => h) rfl fun _ => rfl
    | ack y => exact moves_of_finds hone _ (fun h => h) rfl fun _ => rfl
    | nack y delaySeconds => exact moves_of_finds hone _ (fun h => h) rfl fun _ => rfl
    | deleteQueued y => exact moves_of_finds hone _ (fun h => h) rfl fun _ => rfl

end Held

/-! ## What a run keeps -/

section Dequeues

variable {text : QueueMessage π → String} {s : Store π} {d : QueueMessage π} {x : String}

/-- What a `dequeue` returns it has found in the queue. -/
theorem mem_held_of_dequeued (h : s.dequeued text = some d) : (Place.queue, d) ∈ s.held d.id :=
  @mem_held_of_finds π text s.world .dequeue s.clock d (List.mem_of_mem_head? h)

/-- What is returned was in the queue. -/
theorem delivers_of_ne (hne : ∀ d, (Place.queue, d) ∉ s.held x) (t : Turn π) :
    s.delivers text x t = false := by
  cases t with
  | elapse nanos => rfl
  | perform op =>
    refine Bool.eq_false_iff.mpr fun htrue => ?_
    obtain ⟨hdequeues, hany⟩ := Bool.and_eq_true_iff.mp htrue
    obtain ⟨d, hd, hid⟩ := List.any_eq_true.mp hany
    have hmem : (op.reads, d) ∈ s.held d.id := mem_held_of_finds (w := s.world) hd
    rw [Op.reads_of_dequeues hdequeues, of_decide_eq_true hid] at hmem
    exact hne d hmem

end Dequeues

section Runs

variable [DecidableEq π] {text : QueueMessage π → String} {s : Store π} {m d : QueueMessage π}
  {x : String} {ts : List (Turn π)}

/-- The message is held once at most, with the counts that it was enqueued with. -/
structure Copied (m : QueueMessage π) (s : Store π) : Prop where
  one : (s.held m.id).length ≤ 1
  counts : ∀ e ∈ s.held m.id,
    e.2.receiveCount = m.receiveCount ∧ e.2.maxReceiveCount = m.maxReceiveCount

theorem Copied.step (h : Copied m s) {t : Turn π} (hgives : t.gives m.id = false) :
    Copied m (s.step text t) := by
  rcases moves_of_gives text h.one hgives with ⟨hheld, -⟩ | ⟨op, d, -, -, hheld, hputs⟩
  · exact ⟨hheld ▸ h.one, hheld ▸ h.counts⟩
  · have hd := h.counts (op.reads, d) (by rw [hheld]; exact List.mem_cons_self)
    refine ⟨?_, fun e he => ?_⟩
    · rw [hputs]
      exact op.length_puts s.clock d
    · rw [hputs] at he
      have hcounts := op.eq_of_mem_puts he
      exact ⟨hcounts.1.trans hd.1, hcounts.2.trans hd.2⟩

theorem Copied.run (h : Copied m s) (hgives : ∀ t ∈ ts, t.gives m.id = false) :
    Copied m (run (Store.step text) s ts) :=
  invariant_along (Store.step text) (fun _ _ hs ht => hs.step ht) h
    (along_of_forall_mem _ hgives)

theorem held_run_nil (h : s.held x = []) (hgives : ∀ t ∈ ts, t.gives x = false) :
    (run (Store.step text) s ts).held x = [] := by
  refine invariant_along (Store.step text) (I := fun s => s.held x = []) (fun s t hs ht => ?_) h
    (along_of_forall_mem _ hgives)
  have hone : (s.held x).length ≤ 1 := by
    rw [hs]
    exact Nat.zero_le 1
  rcases moves_of_gives text hone ht with ⟨hheld, -⟩ | ⟨op, d, -, -, hheld, -⟩
  · exact hheld.trans hs
  · rw [hs] at hheld
    cases hheld

/-- Nothing takes a message out of the dead letters, and none is returned from there. -/
theorem held_run_deadLetter (h : s.held x = [(.deadLetter, d)])
    (hgives : ∀ t ∈ ts, t.gives x = false) :
    (run (Store.step text) s ts).held x = [(.deadLetter, d)] := by
  refine invariant_along (Store.step text) (I := fun s => s.held x = [(.deadLetter, d)])
    (fun s t hs ht => ?_) h (along_of_forall_mem _ hgives)
  rcases moves_of_gives text (congrArg List.length hs).le ht with
    ⟨hheld, -⟩ | ⟨op, e, -, -, hheld, -⟩
  · exact hheld.trans hs
  · rw [hs] at hheld
    exact absurd (congrArg Prod.fst (List.singleton_injective hheld)).symm op.reads_ne_deadLetter

/-- Neither a dequeue nor time takes a message out of processing. -/
theorem held_run_processing (h : s.held x = [(.processing, d)]) (hwaits : ∀ t ∈ ts, t.waits = true) :
    (run (Store.step text) s ts).held x = [(.processing, d)] := by
  refine invariant_along (Store.step text) (I := fun s => s.held x = [(.processing, d)])
    (fun s t hs ht => ?_) h (along_of_forall_mem _ hwaits)
  have hgives : t.gives x = false := by
    cases t with
    | elapse nanos => rfl
    | perform op =>
      cases op with
      | enqueue m => cases ht
      | enqueueBatch ms => cases ht
      | _ => rfl
  rcases moves_of_gives text (congrArg List.length hs).le hgives with
    ⟨hheld, -⟩ | ⟨op, e, hdequeues, -, hheld, -⟩
  · exact hheld.trans hs
  · rw [hs] at hheld
    have hplace := congrArg Prod.fst (List.singleton_injective hheld)
    rw [Op.reads_of_dequeues (hdequeues ht)] at hplace
    cases hplace

end Runs

/-! ## Deliveries -/

section Deliveries

variable [DecidableEq π] {text : QueueMessage π → String} {s : Store π} {m d : QueueMessage π}
  {x : String}

theorem deliveries_append (ts ts' : List (Turn π)) :
    deliveries text x s (ts ++ ts') =
      deliveries text x s ts + deliveries text x (run (Store.step text) s ts) ts' := by
  induction ts generalizing s with
  | nil => exact (Nat.zero_add _).symm
  | cons t ts ih => rw [List.cons_append, deliveries, deliveries, ih, run_cons, Nat.add_assoc]

theorem held_enqueued (hnone : s.held m.id = []) (hcheck : m.check text = .ok ()) :
    (s.step text (.perform (.enqueue m))).held m.id = [(.queue, m)] := by
  have hgiven : (Op.enqueue m).given.mapM (·.check text) = .ok [()] := by
    rw [Op.given, List.mapM_cons, hcheck]
    rfl
  have hstep : s.step text (.perform (.enqueue m)) = s.exec (.enqueue m) := by
    simp only [Store.step, Store.commands, hgiven]
    rfl
  rw [hstep]
  exact held_after_add (w := s.world) (c := .enqueue m) rfl hnone s.clock

variable (text) in
/-- The message is in the queue when it was enqueued. -/
theorem held_history (hcheck : m.check text = .ok ()) (now : ℤ) {before : List (Turn π)}
    (hgives : ∀ t ∈ before, t.gives m.id = false) :
    (history text m now before []).held m.id = [(.queue, m)] := by
  rw [history, run_append, run_cons, run_nil]
  exact held_enqueued (held_run_nil rfl hgives) hcheck

theorem history_append (now : ℤ) (before after : List (Turn π)) :
    history text m now before after =
      run (Store.step text) (history text m now before []) after := by
  rw [history, history, ← run_append, List.append_assoc]
  rfl

theorem held_dequeued (hone : (s.held d.id).length ≤ 1) (h : s.dequeued text = some d) :
    (s.step text (.perform .dequeue)).held d.id = [(.processing, d)] := by
  have hd : d ∈ s.finds text .dequeue := List.mem_of_mem_head? h
  rcases @held_foldl_finds π _ text s d.id .dequeue hone with
    ⟨-, hnone⟩ | ⟨e, he, -, -, hputs⟩
  · exact absurd rfl (hnone d hd)
  · rw [Store.finds_dequeue, h] at he
    rw [List.mem_singleton.mp he] at hputs
    exact hputs

theorem held_nacked (hheld : s.held x = [(.processing, d)]) (delaySeconds : Option ℕ) :
    (s.step text (.perform (.nack x delaySeconds))).held x =
      if d.shouldDeadLetter then [(.deadLetter, d)]
      else [(.queue, d.resetForRetry s.clock delaySeconds)] := by
  have hmem : (Place.processing, d) ∈ s.world.held x := by
    show _ ∈ s.held x
    rw [hheld]
    exact List.mem_cons_self
  obtain ⟨⟨score, hscore⟩, hid⟩ := mem_held.mp hmem
  rcases @held_foldl_finds π _ text s x (.nack x delaySeconds) (congrArg List.length hheld).le with
    ⟨-, hnone⟩ | ⟨e, -, -, heheld, hputs⟩
  · -- The read of processing finds the message.
    exfalso
    cases hfind : ((s.sets .processing).zrange text).find? (fun m => m.id = x) with
    | none =>
      exact List.find?_eq_none.mp hfind d (mem_zrange.mpr ⟨score, hscore⟩) (decide_eq_true hid)
    | some e =>
      refine hnone e ?_ (by simpa using List.find?_some hfind)
      show e ∈ (((s.sets .processing).zrange text).find? fun m => m.id = x).toList
      rw [hfind]
      exact List.mem_cons_self
  · rw [hheld] at heheld
    obtain rfl : d = e := congrArg Prod.snd (List.singleton_injective heheld)
    show (((s.finds text (.nack x delaySeconds)).flatMap (Op.nack x delaySeconds).cmds).foldl
      Store.exec s).held x = _
    rw [hputs, Op.puts, Op.cmds, List.tail_cons, List.map_cons, List.map_nil]
    split <;> rfl

/-- The sets hold no other message. -/
def Alone (x : String) (s : Store π) : Prop := ∀ y, y ≠ x → s.held y = []

theorem Alone.run (h : Alone x s) {ts : List (Turn π)}
    (hgives : ∀ t ∈ ts, ∀ y, y ≠ x → t.gives y = false) :
    Alone x (run (Store.step text) s ts) :=
  fun y hy => held_run_nil (h y hy) fun t ht => hgives t ht y hy

variable (text) in
/-- A message that is alone in the queue is returned once it is late enough. -/
theorem exists_dequeued (halone : Alone x s) (hheld : s.held x = [(.queue, d)]) :
    ∃ nanos : ℕ, (s.step text (.elapse nanos)).dequeued text = some d := by
  have hmem : (Place.queue, d) ∈ s.world.held x := by
    show _ ∈ s.held x
    rw [hheld]
    exact List.mem_cons_self
  obtain ⟨⟨score, hscore⟩, hid⟩ := mem_held.mp hmem
  refine ⟨(score * 1000000 - s.clock).toNat, ?_⟩
  let s' := s.step text (.elapse (score * 1000000 - s.clock).toNat)
  cases hdequeued : s'.dequeued text with
  | none =>
    have hdequeued' : ((s.sets .queue).zrangebyscore text
        (QueueMessage.millis (min s'.clock s'.clock)) 1).head? = none := hdequeued
    have hlate : QueueMessage.millis (min s'.clock s'.clock) < score :=
      head_zrangebyscore.1.mp hdequeued' _ hscore
    have hclock : s'.clock = s.clock + ((score * 1000000 - s.clock).toNat : ℤ) := rfl
    rw [min_self, QueueMessage.millis, hclock] at hlate
    omega
  | some e =>
    have hqueue : (Place.queue, e) ∈ s.held e.id := mem_held_of_dequeued (s := s') hdequeued
    have he : e.id = x := by
      by_contra hne
      rw [halone _ hne] at hqueue
      cases hqueue
    rw [he, hheld] at hqueue
    obtain rfl : e = d := congrArg Prod.snd (List.mem_singleton.mp hqueue)
    rfl

variable (text) in
/-- A message that is alone in the queue can be delivered. -/
theorem exists_delivered (halone : Alone x s) (hheld : s.held x = [(.queue, d)]) :
    ∃ nanos : ℕ, let ts := [.elapse nanos, .perform .dequeue]
      (run (Store.step text) s ts).held x = [(.processing, d)] ∧ deliveries text x s ts = 1 := by
  obtain ⟨nanos, hdequeued⟩ := exists_dequeued text halone hheld
  have hid : d.id = x :=
    (mem_held (w := s.world).mp (by show _ ∈ s.held x; rw [hheld]; exact List.mem_cons_self)).2
  subst hid
  refine ⟨nanos, held_dequeued (s := s.step text (.elapse nanos)) ?_ hdequeued, ?_⟩
  · show (s.held d.id).length ≤ 1
    rw [hheld]
    exact le_rfl
  · have hdelivers : (s.step text (.elapse nanos)).delivers text d.id (.perform .dequeue) = true := by
      rw [Store.delivers, Store.finds_dequeue, hdequeued]
      simp [Op.kind, Kind.dequeues]
    rw [deliveries, deliveries, hdelivers]
    rfl

variable (text) in
/-- A message that may be received more often than it was counted is delivered any number of times,
and nacked each time. -/
theorem exists_redelivered (halone : Alone x s) (hheld : s.held x = [(.queue, d)])
    (hcount : d.receiveCount < d.maxReceiveCount) (n : ℕ) :
    ∃ ts : List (Turn π), (∀ t ∈ ts, ∀ y, t.gives y = false) ∧ deliveries text x s ts = n ∧
      Alone x (run (Store.step text) s ts) ∧
        ∃ d', d'.receiveCount < d'.maxReceiveCount ∧
          (run (Store.step text) s ts).held x = [(.queue, d')] := by
  induction n with
  | zero => exact ⟨[], fun t ht => absurd ht List.not_mem_nil, rfl, halone, d, hcount, hheld⟩
  | succ n ih =>
    obtain ⟨ts, hgives, hdeliveries, halone', d', hcount', hheld'⟩ := ih
    obtain ⟨nanos, hprocessing, hone⟩ := exists_delivered text halone' hheld'
    let more : List (Turn π) :=
      [.elapse nanos, .perform .dequeue] ++ [.perform (.nack x none)]
    have hmore : ∀ t ∈ more, ∀ y, t.gives y = false := by
      intro t ht y
      simp only [more, List.cons_append, List.nil_append, List.mem_cons, List.not_mem_nil,
        or_false] at ht
      rcases ht with rfl | rfl | rfl <;> rfl
    let now := (run (Store.step text) (run (Store.step text) s ts)
      [.elapse nanos, .perform .dequeue]).clock
    have hnacked : (run (Store.step text) (run (Store.step text) s ts) more).held x =
        [(.queue, d'.resetForRetry now none)] := by
      rw [run_append, run_cons, run_nil, held_nacked hprocessing, if_neg]
      simp [QueueMessage.shouldDeadLetter, hcount']
    refine ⟨ts ++ more, fun t ht => ?_, ?_, ?_, d'.resetForRetry now none, hcount', ?_⟩
    · exact (List.mem_append.mp ht).elim (hgives t) (hmore t)
    · rw [deliveries_append, hdeliveries, deliveries_append, hone]
      rfl
    · rw [run_append]
      exact halone'.run fun t ht y _ => hmore t ht y
    · rw [run_append]
      exact hnacked

end Deliveries

/-! ## What becomes of a message -/

section Outcomes

variable [DecidableEq π] {text : QueueMessage π → String} {m : QueueMessage π}

theorem alone_history (now : ℤ) : Alone m.id (history text m now [] []) := by
  refine Alone.run (s := Store.init now) (fun y _ => rfl) fun t ht y hy => ?_
  rw [List.mem_singleton.mp ht]
  have hne : ¬ y = m.id := hy
  simpa [Turn.gives, Op.given] using hne

variable (text) in
/-- A message is delivered after it was enqueued, and processing holds it as it was. -/
theorem exists_history (hcheck : m.check text = .ok ()) :
    ∃ nanos : ℕ, (history text m 0 [] [.elapse nanos]).dequeued text = some m ∧
      ((history text m 0 [] [.elapse nanos]).step text (.perform .dequeue)).held m.id =
        [(.processing, m)] := by
  have hheld := held_history text hcheck 0 (List.forall_mem_nil _)
  obtain ⟨nanos, hdequeued⟩ := exists_dequeued text (alone_history 0) hheld
  refine ⟨nanos, ?_, ?_⟩
  · rw [history_append]
    exact hdequeued
  · rw [history_append]
    exact held_dequeued (s := (history text m 0 [] []).step text (.elapse nanos))
      (congrArg List.length hheld).le hdequeued

theorem not_counted (hcheck : m.check text = .ok ()) : ¬ Counted text m := by
  intro hcounted
  obtain ⟨nanos, hdequeued, hheld⟩ := exists_history text hcheck
  have hcount := hcounted 0 [] [.elapse nanos] (fun t ht => List.mem_singleton.mp ht ▸ rfl) m
    hdequeued rfl (.processing, m) (by rw [hheld]; exact List.mem_cons_self)
  exact absurd hcount (Nat.lt_succ_self m.receiveCount).ne

theorem not_returned (hcheck : m.check text = .ok ()) : ¬ Returned text m := by
  intro hreturned
  obtain ⟨nanos, hdequeued, hheld⟩ := exists_history text hcheck
  obtain ⟨ts, hwaits, d, hd, hid⟩ := hreturned 0 [] [.elapse nanos]
    (fun t ht => List.mem_singleton.mp ht ▸ rfl) m hdequeued rfl _ le_rfl
  rw [run_cons] at hd
  have hqueue := mem_held_of_dequeued hd
  rw [hid, held_run_processing hheld (List.forall_mem_cons.mpr ⟨rfl, hwaits⟩)] at hqueue
  cases List.mem_singleton.mp hqueue

/-- The last allowed delivery is buried when the count was there from the start. -/
theorem buried_of_le (hcheck : m.check text = .ok ()) (hcount : m.maxReceiveCount ≤ m.receiveCount) :
    Buried text m := by
  intro now before after hgives _ d hd delaySeconds s'
  obtain ⟨hbefore, hafter⟩ := List.forall_mem_append.mp hgives
  have hstart := held_history text hcheck now hbefore
  have hcopied : Copied m (history text m now before after) := by
    rw [history_append]
    refine Copied.run ⟨(congrArg List.length hstart).le, fun e he => ?_⟩ hafter
    rw [hstart] at he
    rw [List.mem_singleton.mp he]
    exact ⟨rfl, rfl⟩
  have hheld : (history text m now before after).held m.id = [(.processing, d)] := by
    have hone := hcopied.one
    rcases h : (history text m now before after).held m.id with _ | ⟨e, _ | ⟨e', rest⟩⟩
    · rw [h] at hd
      cases hd
    · rw [h] at hd
      rw [List.mem_singleton.mp hd]
    · simp [h] at hone
  have hdead : d.shouldDeadLetter = true := by
    obtain ⟨hreceive, hmax⟩ := hcopied.counts _ hd
    refine decide_eq_true ?_
    rw [hreceive, hmax]
    exact hcount
  have hburied : s'.held m.id = [(.deadLetter, d)] := by
    refine (held_nacked hheld delaySeconds).trans ?_
    rw [if_pos hdead]
  refine ⟨⟨d, by rw [hburied]; exact List.mem_cons_self⟩, fun ts hts t => ?_⟩
  refine delivers_of_ne (fun e he => ?_) t
  rw [held_run_deadLetter hburied hts] at he
  cases List.mem_singleton.mp he

/-- A message that is counted below the maximum is delivered as often as allowed and then nacked. -/
theorem le_of_buried (hcheck : m.check text = .ok ()) (hburied : Buried text m) :
    m.maxReceiveCount ≤ m.receiveCount := by
  by_contra hcount
  have hpos : 0 < m.maxReceiveCount := Nat.lt_of_le_of_lt (Nat.zero_le _) (not_le.mp hcount)
  have hstart := held_history text hcheck 0 (List.forall_mem_nil _)
  obtain ⟨ts, hgives, hdeliveries, halone, d, hd, hheld⟩ :=
    exists_redelivered text (alone_history 0) hstart (not_le.mp hcount)
      (m.maxReceiveCount - 1)
  obtain ⟨nanos, hprocessing, hone⟩ := exists_delivered text halone hheld
  let after : List (Turn π) := ts ++ [.elapse nanos, .perform .dequeue]
  have hlast : (history text m 0 [] after).held m.id = [(.processing, d)] := by
    rw [history_append, run_append]
    exact hprocessing
  have hafter : ∀ t ∈ ts ++ [.elapse nanos, .perform .dequeue], t.gives m.id = false := by
    intro t ht
    rcases List.mem_append.mp ht with ht | ht
    · exact hgives t ht m.id
    · simp only [List.mem_cons, List.not_mem_nil, or_false] at ht
      rcases ht with rfl | rfl <;> rfl
  have htotal : deliveries text m.id (history text m 0 [] []) after = m.maxReceiveCount := by
    rw [deliveries_append, hdeliveries, hone]
    exact Nat.sub_add_cancel hpos
  have hd' : (Place.processing, d) ∈ (history text m 0 [] after).held m.id := by
    rw [hlast]
    exact List.mem_cons_self
  obtain ⟨⟨e, he⟩, -⟩ := hburied 0 [] after hafter htotal d hd' none
  rw [held_nacked hlast, if_neg] at he
  · cases List.mem_singleton.mp he
  · simp [QueueMessage.shouldDeadLetter, hd]

/-- Of a message that can be enqueued no delivery is counted, no abandoned delivery returns, and a
nack buries it only when the count it was enqueued with had reached the maximum. -/
theorem redelivered_iff (hcheck : m.check text = .ok ()) :
    ¬ Counted text m ∧ ¬ Returned text m ∧
      (Buried text m ↔ m.maxReceiveCount ≤ m.receiveCount) :=
  ⟨not_counted hcheck, not_returned hcheck, le_of_buried hcheck, buried_of_le hcheck⟩

/-- A message that is enqueued as received as often as allowed. -/
theorem redelivered_worn :
    ¬ Counted QueueMessage.payload { order with receiveCount := 2 } ∧
      ¬ Returned QueueMessage.payload { order with receiveCount := 2 } ∧
        (Buried QueueMessage.payload { order with receiveCount := 2 } ↔ 2 ≤ 2) :=
  redelivered_iff (m := { order with receiveCount := 2 }) (by decide)

/-- None of the three holds of a message that was not received yet. -/
theorem not_redelivered :
    ¬ Counted QueueMessage.payload order ∧ ¬ Returned QueueMessage.payload order ∧
      ¬ Buried QueueMessage.payload order := by
  have hcheck : order.check QueueMessage.payload = .ok () := by decide
  refine ⟨not_counted hcheck, not_returned hcheck, fun hburied => ?_⟩
  have hle := le_of_buried hcheck hburied
  cases hle

end Outcomes

end Backbone.Queue.Redis
