import Backbone.Queue.RedisMoves

/-!
# Following one message of a Redis queue

The invariant that tells where a message is while the operations on it follow one another, and what a
command, and the steps that send none, leave of it.

Reference: `backbone-queue/src/redis.rs`.
-/

namespace Backbone.Queue.Redis

open Machine

variable {π : Type} {cmds : List (Cmd π)}

/-- How far an operation is that moves the message, and where it is then. -/
def Progress (settled dequeues : Bool) (held : List (Place × QueueMessage π)) :
    List (Cmd π) → Prop
  | [] => (held = [] → settled = true) ∧ (dequeues = true → ∀ e ∈ held, e.1 ≠ .queue)
  | [c] => c.isRemove = false ∧ held = [] ∧ (dequeues = true → c.place ≠ .queue)
  | [r, c] => r.isRemove = true ∧ c.isRemove = false ∧
      (held = [] ∧ settled = true ∨ held = [(r.place, r.message)]) ∧
      (dequeues = true → c.place ≠ .queue)
  | _ => False

/-- How far an operation is that enqueues the message. -/
def Entering (stored fails : Bool) (out : Option ℤ) (held : List (Place × QueueMessage π)) :
    List (Cmd π) → Prop
  | [] => stored = true ∨ fails = true
  | [c] => c.isRemove = false ∧ held = [] ∧ stored = false ∧ out = none
  | _ => False

theorem Entering.fails {stored fails fails' : Bool} {out : Option ℤ}
    {held : List (Place × QueueMessage π)} (h : Entering stored fails out held cmds)
    (hfails : fails = true → fails' = true) : Entering stored fails' out held cmds := by
  rcases cmds with _ | ⟨c, _ | ⟨c', rest⟩⟩
  · exact h.imp_right hfails
  · exact h
  · exact h

/-- The message is held at most once, and whoever moves it moves it alone. -/
structure Tracked (q : World π × Log) (x : String) : Prop where
  one : (q.1.held x).length ≤ 1
  named : ∀ i job, q.1.clients i = some (.working job) → job.cmdsOf x ≠ [] → x ∈ job.ids
  lone : ∀ i job, q.1.clients i = some (.working job) → job.kind.dequeues = true →
    job.found.countP (fun m => decide (m.id = x)) ≤ 1
  sole : ∀ i j job job', q.1.clients i = some (.working job) →
    q.1.clients j = some (.working job') → x ∈ job.ids → x ∈ job'.ids →
      job.kind.moves = true → job'.kind.moves = true → i = j
  moving : ∀ i job, q.1.clients i = some (.working job) → x ∈ job.ids →
    job.kind.moves = true →
      Progress (q.2.settled x) job.kind.dequeues (q.1.held x) (job.cmdsOf x)
  entrant : ∀ i j job job', q.1.clients i = some (.working job) →
    q.1.clients j = some (.working job') → x ∈ job.ids → x ∈ job'.ids →
      job.kind.enqueues = true → job'.kind.enqueues = true → i = j
  entering : ∀ i job, q.1.clients i = some (.working job) → x ∈ job.ids →
    job.kind.enqueues = true →
      Entering (q.2.stored x) job.fails (q.2.out x) (q.1.held x) (job.cmdsOf x)
  /-- What is to be enqueued nobody moves yet. -/
  unmoved : ∀ i j job job', q.1.clients i = some (.working job) →
    q.1.clients j = some (.working job') → x ∈ job.ids → x ∈ job'.ids →
      job.kind.enqueues = true → job.cmdsOf x ≠ [] → job'.kind.moves = false
  settling : ∀ i job, q.1.clients i = some (.working job) → job.kind = .settle →
    ∀ c ∈ job.cmdsOf x, c.isRemove = true
  kept : q.2.stored x = true → q.2.settled x = false →
    (∀ i job, q.1.clients i = some (.working job) → ¬ job.between x) → q.1.held x ≠ []
  accepted : q.2.accepted x = true → q.2.stored x = true
  /-- What a dequeue has returned, no other will. -/
  out : q.2.out x ≠ none → (∀ e ∈ q.1.held x, e.1 ≠ .queue) ∧
    ∀ i job, q.1.clients i = some (.working job) → x ∈ job.ids →
      job.kind.dequeues = false ∧ (job.kind = .nack → 2 ≤ (job.cmdsOf x).length)
  fresh : q.2.used x = false → q.1.held x = [] ∧ q.2.stored x = false ∧ q.2.out x = none ∧
    ∀ i job, q.1.clients i = some (.working job) → x ∉ job.ids
  once : q.2.twice x = false

theorem Tracked.init (now : ℤ) (x : String) : Tracked ((World.init now : World π), Log.empty) x where
  one := Nat.zero_le 1
  named i job hi := by cases hi
  lone i job hi := by cases hi
  sole i j job job' hi := by cases hi
  moving i job hi := by cases hi
  entrant i j job job' hi := by cases hi
  entering i job hi := by cases hi
  unmoved i j job job' hi := by cases hi
  settling i job hi := by cases hi
  kept hstored := by cases hstored
  accepted haccepted := by cases haccepted
  out hout := absurd rfl hout
  fresh _ := ⟨rfl, rfl, rfl, fun i job hi => by cases hi⟩
  once := rfl

section

variable {q q' : World π × Log} {x : String} {i : ℕ} {job : Job π}
  {held held' : List (Place × QueueMessage π)}

theorem Tracked.held_eq (h : Tracked q x) {e : Place × QueueMessage π} (he : e ∈ q.1.held x) :
    q.1.held x = [e] := by
  have hone := h.one
  generalize q.1.held x = held at he hone
  rcases held with _ | ⟨e', _ | ⟨e'', rest⟩⟩
  · cases he
  · rw [List.mem_singleton.mp he]
  · simp at hone

/-- The message is where it was, and the log tells nothing new of it. -/
structure LeftAlone (q q' : World π × Log) (x : String) : Prop where
  held : q'.1.held x = q.1.held x
  stored : q'.2.stored x = q.2.stored x
  settled : q'.2.settled x = q.2.settled x
  out : q'.2.out x = q.2.out x
  twice : q'.2.twice x = q.2.twice x
  accepted : q'.2.accepted x = true → q'.2.stored x = true
  used : q'.2.used x = false → q.2.used x = false

/-- Nothing has happened to the message that the invariant tells of. -/
theorem Tracked.frame (h : Tracked q x) (hsame : LeftAlone q q' x)
    -- A job on the message was there before, and the rest of it that is about the message.
    (hjobs : ∀ i job', q'.1.clients i = some (.working job') → x ∈ job'.ids ∨ job'.cmdsOf x ≠ [] →
      ∃ job, q.1.clients i = some (.working job) ∧ job.kind = job'.kind ∧ job.found = job'.found ∧
        job.cmdsOf x = job'.cmdsOf x ∧ (job.fails = true → job'.fails = true))
    (hlone : ∀ i job', q'.1.clients i = some (.working job') → job'.kind.dequeues = true →
      job'.found.countP (fun m => decide (m.id = x)) ≤ 1)
    (hbetween : ∀ i job, q.1.clients i = some (.working job) → job.between x →
      q.2.settled x = false → ∃ job', q'.1.clients i = some (.working job') ∧ job'.between x) :
    Tracked q' x := by
  obtain ⟨hheld, hstored, hsettled, hout, htwice, haccepted, hused⟩ := hsame
  have hon : ∀ {i job'}, q'.1.clients i = some (.working job') → x ∈ job'.ids →
      ∃ job, q.1.clients i = some (.working job) ∧ x ∈ job.ids ∧ job.kind = job'.kind ∧
        job.cmdsOf x = job'.cmdsOf x ∧ (job.fails = true → job'.fails = true) := by
    intro i job' hi hx
    obtain ⟨job, hi', hkind, hfound, hcmds⟩ := hjobs i job' hi (.inl hx)
    rw [Job.ids, ← hfound] at hx
    exact ⟨job, hi', hx, hkind, hcmds⟩
  constructor
  case one =>
    rw [hheld]
    exact h.one
  case named =>
    intro i job' hi hcmds
    obtain ⟨job, hi', -, hfound, hcmds', -⟩ := hjobs i job' hi (.inr hcmds)
    rw [Job.ids, ← hfound]
    exact h.named i job hi' (by rwa [hcmds'])
  case lone => exact hlone
  case sole =>
    intro i j job₁ job₂ hi hj hx₁ hx₂ hmoves₁ hmoves₂
    obtain ⟨job₁', hi', hx₁', hkind₁, -⟩ := hon hi hx₁
    obtain ⟨job₂', hj', hx₂', hkind₂, -⟩ := hon hj hx₂
    exact h.sole i j job₁' job₂' hi' hj' hx₁' hx₂' (by rwa [hkind₁]) (by rwa [hkind₂])
  case moving =>
    intro i job' hi hx hmoves
    obtain ⟨job, hi', hx', hkind, hcmds, -⟩ := hon hi hx
    rw [← hcmds, ← hkind, hheld, hsettled]
    exact h.moving i job hi' hx' (by rwa [hkind])
  case entrant =>
    intro i j job₁ job₂ hi hj hx₁ hx₂ henqueues₁ henqueues₂
    obtain ⟨job₁', hi', hx₁', hkind₁, -⟩ := hon hi hx₁
    obtain ⟨job₂', hj', hx₂', hkind₂, -⟩ := hon hj hx₂
    exact h.entrant i j job₁' job₂' hi' hj' hx₁' hx₂' (by rwa [hkind₁]) (by rwa [hkind₂])
  case entering =>
    intro i job' hi hx henqueues
    obtain ⟨job, hi', hx', hkind, hcmds, hfails⟩ := hon hi hx
    rw [← hcmds, hheld, hstored, hout]
    exact (h.entering i job hi' hx' (by rwa [hkind])).fails hfails
  case unmoved =>
    intro i j job₁ job₂ hi hj hx₁ hx₂ henqueues hcmds
    obtain ⟨job₁', hi', hx₁', hkind₁, hcmds₁, -⟩ := hon hi hx₁
    obtain ⟨job₂', hj', hx₂', hkind₂, -⟩ := hon hj hx₂
    rw [← hkind₂]
    exact h.unmoved i j job₁' job₂' hi' hj' hx₁' hx₂' (by rwa [hkind₁]) (by rwa [hcmds₁])
  case settling =>
    intro i job' hi hsettle c hc
    obtain ⟨job, hi', hkind, -, hcmds, -⟩ := hjobs i job' hi (.inr (List.ne_nil_of_mem hc))
    exact h.settling i job hi' (hkind.trans hsettle) c (by rwa [hcmds])
  case kept =>
    rw [hheld, hstored, hsettled]
    intro hstored' hsettled' hnone
    refine h.kept hstored' hsettled' fun i job hi hb => ?_
    obtain ⟨job', hi', hb'⟩ := hbetween i job hi hb hsettled'
    exact hnone i job' hi' hb'
  case accepted => exact haccepted
  case out =>
    rw [hout, hheld]
    intro hout'
    refine ⟨(h.out hout').1, fun i job' hi hx => ?_⟩
    obtain ⟨job, hi', hx', hkind, hcmds, -⟩ := hon hi hx
    rw [← hkind, ← hcmds]
    exact (h.out hout').2 i job hi' hx'
  case fresh =>
    intro hused'
    obtain ⟨hempty, hstored', hout', hnone⟩ := h.fresh (hused hused')
    rw [hheld, hstored, hout]
    refine ⟨hempty, hstored', hout', fun i job' hi hx => ?_⟩
    obtain ⟨job, hi', hx', -⟩ := hon hi hx
    exact hnone i job hi' hx'
  case once =>
    rw [htwice]
    exact h.once

/-! ## Steps that are not about the message -/

variable {c : Client π}

theorem clients_update {w : World π} {j : ℕ} {job : Job π}
    {clients : ℕ → Option (Client π)}
    (hclients : clients = Function.update w.clients i (some c))
    (hj : clients j = some (.working job)) :
    j = i ∧ c = .working job ∨ j ≠ i ∧ w.clients j = some (.working job) := by
  subst hclients
  by_cases hji : j = i
  · subst hji
    rw [Function.update_self] at hj
    exact .inl ⟨rfl, Option.some.inj hj⟩
  · rw [Function.update_of_ne hji] at hj
    exact .inr ⟨hji, hj⟩

section Working

variable {w : World π} {job' : Job π} {clients : ℕ → Option (Client π)}

section

variable (hclients : clients = Function.update w.clients i (some (.working job')))
include hclients

/-- What holds of every job: of the one that a client is at now, and of those of the others. -/
theorem forall_working {P : ℕ → Job π → Prop} (hself : P i job')
    (hothers : ∀ j job, j ≠ i → w.clients j = some (.working job) → P j job) :
    ∀ j job, clients j = some (.working job) → P j job := by
  intro j job hj
  rcases clients_update hclients hj with ⟨rfl, hw⟩ | ⟨hji, hj'⟩
  · cases hw
    exact hself
  · exact hothers j job hji hj'

/-- What holds of every two jobs. -/
theorem forall_working₂ {R : ℕ → ℕ → Job π → Job π → Prop}
    (hself : R i i job' job')
    (hleft : ∀ k job, w.clients k = some (.working job) → R i k job' job)
    (hright : ∀ j job, w.clients j = some (.working job) → R j i job job')
    (hothers : ∀ j k job₁ job₂, w.clients j = some (.working job₁) →
      w.clients k = some (.working job₂) → R j k job₁ job₂) :
    ∀ j k job₁ job₂, clients j = some (.working job₁) → clients k = some (.working job₂) →
      R j k job₁ job₂ := by
  intro j k job₁ job₂ hj hk
  rcases clients_update hclients hj with ⟨rfl, hw⟩ | ⟨-, hj'⟩ <;>
    rcases clients_update hclients hk with ⟨rfl, hw'⟩ | ⟨-, hk'⟩
  · cases hw
    cases hw'
    exact hself
  · cases hw
    exact hleft k job₂ hk'
  · cases hw'
    exact hright j job₁ hj'
  · exact hothers j k job₁ job₂ hj' hk'

end

end Working

theorem Job.countP_found_of_not_mem (hx : x ∉ job.ids) :
    job.found.countP (fun m => decide (m.id = x)) = 0 := by
  refine List.countP_eq_zero.mpr fun m hm hid => ?_
  exact hx (List.mem_map.mpr ⟨m, hm, by simpa using hid⟩)

/-- A client that is at no job any more. -/
theorem Tracked.leave (h : Tracked q x) (hc : ∀ job, c ≠ .working job)
    (hclients : q'.1.clients = Function.update q.1.clients i (some c))
    (hsame : LeftAlone q q' x)
    (hbetween : ∀ job, q.1.clients i = some (.working job) → job.between x →
      q.2.settled x = true) : Tracked q' x := by
  have hold : ∀ {j job'}, q'.1.clients j = some (.working job') →
      q.1.clients j = some (.working job') := by
    intro j job' hj
    rcases clients_update hclients hj with ⟨-, hw⟩ | ⟨-, hj'⟩
    · exact absurd hw (hc job')
    · exact hj'
  refine h.frame hsame (fun j job' hj _ => ?_)
    (fun j job' hj hdequeues => h.lone j job' (hold hj) hdequeues) fun j job' hj hb hfree => ?_
  · exact ⟨job', hold hj, rfl, rfl, rfl, id⟩
  · have hji : j ≠ i := by
      rintro rfl
      rw [hbetween job' hj hb] at hfree
      cases hfree
    refine ⟨job', ?_, hb⟩
    rw [hclients, Function.update_of_ne hji]
    exact hj

/-- A client starts a job that is not about the message. -/
theorem Tracked.start (h : Tracked q x) {job' : Job π}
    (hbefore : ∀ job, q.1.clients i ≠ some (.working job)) (hx : x ∉ job'.ids)
    (hcmds : job'.cmdsOf x = [])
    (hclients : q'.1.clients = Function.update q.1.clients i (some (.working job')))
    (hsame : LeftAlone q q' x) : Tracked q' x := by
  refine h.frame hsame (forall_working hclients (fun hon => ?_) fun j job₂ _ hj _ => ?_)
    (forall_working hclients (fun _ => ?_) fun j job₂ _ => h.lone j job₂) fun j job₂ hj hb hfree => ?_
  · exact absurd hcmds (hon.resolve_left hx)
  · exact ⟨job₂, hj, rfl, rfl, rfl, id⟩
  · rw [Job.countP_found_of_not_mem hx]
    exact Nat.zero_le 1
  · have hji : j ≠ i := by
      rintro rfl
      exact hbefore job₂ hj
    refine ⟨job₂, ?_, hb⟩
    rw [hclients, Function.update_of_ne hji]
    exact hj

/-- A client executes a command about another message. -/
theorem Tracked.goOn (h : Tracked q x) (job' : Job π) (hi : q.1.clients i = some (.working job))
    (hkind : job'.kind = job.kind) (hfound : job'.found = job.found)
    (hcmds : job'.cmdsOf x = job.cmdsOf x) (hfails : job.fails = true → job'.fails = true)
    (hclients : q'.1.clients = Function.update q.1.clients i (some (.working job')))
    (hsame : LeftAlone q q' x) : Tracked q' x := by
  refine h.frame hsame (forall_working hclients (fun _ => ?_) fun j job₂ _ hj _ => ?_)
    (forall_working hclients (fun hdequeues => ?_) fun j job₂ _ => h.lone j job₂)
    fun j job₂ hj hb hfree => ?_
  · exact ⟨job, hi, hkind.symm, hfound.symm, hcmds.symm, hfails⟩
  · exact ⟨job₂, hj, rfl, rfl, rfl, id⟩
  · rw [hfound]
    exact h.lone i job hi (by rwa [← hkind])
  · by_cases hji : j = i
    · subst hji
      rw [hi] at hj
      cases hj
      refine ⟨job', ?_, ?_⟩
      · rw [hclients, Function.update_self]
      · rwa [Job.between, hkind, hcmds]
    · refine ⟨job₂, ?_, hb⟩
      rw [hclients, Function.update_of_ne hji]
      exact hj

/-! ## Steps that take a message on -/

/-- A client has found the message and starts to move or settle it. -/
theorem Tracked.join (h : Tracked q x) (job' : Job π) (hx : x ∈ job'.ids)
    (hclients : q'.1.clients = Function.update q.1.clients i (some (.working job')))
    (hheld : q'.1.held x = q.1.held x) (hlog : q'.2 = q.2) (hnone : q.1.held x ≠ [])
    (henqueues : job'.kind.enqueues = false)
    (hlone : job'.found.countP (fun m => decide (m.id = x)) ≤ 1)
    (hsole : job'.kind.moves = true → ∀ j job, q.1.clients j = some (.working job) →
      job.kind.moves = true → x ∉ job.ids)
    (hprogress : job'.kind.moves = true →
      Progress (q.2.settled x) job'.kind.dequeues (q.1.held x) (job'.cmdsOf x))
    (hsettling : job'.kind = .settle → ∀ c ∈ job'.cmdsOf x, c.isRemove = true)
    (hout : q.2.out x ≠ none → job'.kind.dequeues = false ∧
      (job'.kind = .nack → 2 ≤ (job'.cmdsOf x).length)) : Tracked q' x := by
  obtain ⟨w', log⟩ := q'
  obtain rfl : log = q.2 := hlog
  -- Who is still to enqueue the message does not let it be found.
  have hentered : ∀ j job₂, q.1.clients j = some (.working job₂) → x ∈ job₂.ids →
      job₂.kind.enqueues = true → job₂.cmdsOf x = [] := by
    intro j job₂ hj hx₂ henqueues₂
    have hentering := h.entering j job₂ hj hx₂ henqueues₂
    rcases hcmds : job₂.cmdsOf x with _ | ⟨c, _ | ⟨c', rest⟩⟩
    · rfl
    · rw [hcmds] at hentering
      exact absurd hentering.2.1 hnone
    · rw [hcmds] at hentering
      cases hentering
  have hnot : ¬ job'.kind.enqueues = true := by
    rw [henqueues]
    exact Bool.false_ne_true
  constructor
  case one =>
    rw [hheld]
    exact h.one
  case named => exact forall_working hclients (fun _ => hx) fun j job₂ _ => h.named j job₂
  case lone => exact forall_working hclients (fun _ => hlone) fun j job₂ _ => h.lone j job₂
  case sole =>
    refine forall_working₂ hclients (fun _ _ _ _ => rfl) (fun k job₃ hk _ hx₃ hmoves hmoves₃ => ?_)
      (fun j job₂ hj hx₂ _ hmoves₂ hmoves => ?_) h.sole
    · exact absurd hx₃ (hsole hmoves k job₃ hk hmoves₃)
    · exact absurd hx₂ (hsole hmoves j job₂ hj hmoves₂)
  case moving =>
    rw [hheld]
    exact forall_working hclients (fun _ => hprogress) fun j job₂ _ => h.moving j job₂
  case entrant =>
    exact forall_working₂ hclients (fun _ _ _ _ => rfl) (fun _ _ _ _ _ hfalse => absurd hfalse hnot)
      (fun _ _ _ _ _ _ hfalse => absurd hfalse hnot) h.entrant
  case entering =>
    rw [hheld]
    exact forall_working hclients (fun _ hfalse => absurd hfalse hnot) fun j job₂ _ =>
      h.entering j job₂
  case unmoved =>
    refine forall_working₂ hclients (fun _ _ hfalse => absurd hfalse hnot)
      (fun _ _ _ _ _ hfalse => absurd hfalse hnot) (fun j job₂ hj hx₂ _ henqueues₂ hcmds => ?_)
      h.unmoved
    exact absurd (hentered j job₂ hj hx₂ henqueues₂) hcmds
  case settling => exact forall_working hclients hsettling fun j job₂ _ => h.settling j job₂
  case kept =>
    intro _ _ _
    rwa [hheld]
  case accepted => exact h.accepted
  case out =>
    rw [hheld]
    intro hsome
    refine ⟨(h.out hsome).1, ?_⟩
    exact forall_working hclients (fun _ => hout hsome) fun j job₂ _ => (h.out hsome).2 j job₂
  case fresh =>
    intro hused
    exact absurd (h.fresh hused).1 hnone
  case once => exact h.once

variable {c : Cmd π}

/-- A client starts to enqueue the message. -/
theorem Tracked.enter (h : Tracked q x) (job' : Job π)
    (hfresh : q.2.used x = false) (hx : x ∈ job'.ids) (hcmds : job'.cmdsOf x = [c])
    (hadd : c.isRemove = false) (henqueues : job'.kind.enqueues = true)
    (hclients : q'.1.clients = Function.update q.1.clients i (some (.working job')))
    (hheld : q'.1.held x = q.1.held x) (hused : q'.2.used x = true)
    (hstored : q'.2.stored x = q.2.stored x) (haccepted : q'.2.accepted x = q.2.accepted x)
    (hout : q'.2.out x = q.2.out x) (htwice : q'.2.twice x = q.2.twice x) : Tracked q' x := by
  obtain ⟨hempty, hunstored, hnone, hjobs⟩ := h.fresh hfresh
  -- Nobody else is at the message.
  have honly : ∀ {j job₂}, q'.1.clients j = some (.working job₂) → x ∈ job₂.ids →
      j = i ∧ job₂ = job' := by
    intro j job₂ hj hx₂
    rcases clients_update hclients hj with ⟨hji, hw⟩ | ⟨-, hj'⟩
    · cases hw
      exact ⟨hji, rfl⟩
    · exact absurd hx₂ (hjobs j job₂ hj')
  have hnamed : ∀ j job₂, q'.1.clients j = some (.working job₂) → job₂.cmdsOf x ≠ [] →
      x ∈ job₂.ids := forall_working hclients (fun _ => hx) fun j job₂ _ => h.named j job₂
  have hmoves := Kind.moves_of_enqueues henqueues
  have hkinds := Kind.ne_of_enqueues henqueues
  constructor
  case one =>
    rw [hheld]
    exact h.one
  case named => exact hnamed
  case lone =>
    refine forall_working hclients (fun hdequeues => ?_) fun j job₂ _ => h.lone j job₂
    rw [hkinds.1] at hdequeues
    cases hdequeues
  case sole =>
    intro j k job₂ job₃ hj _ hx₂ _ hmoves₂ _
    obtain ⟨-, rfl⟩ := honly hj hx₂
    rw [hmoves] at hmoves₂
    cases hmoves₂
  case moving =>
    intro j job₂ hj hx₂ hmoves₂
    obtain ⟨-, rfl⟩ := honly hj hx₂
    rw [hmoves] at hmoves₂
    cases hmoves₂
  case entrant =>
    intro j k job₂ job₃ hj hk hx₂ hx₃ _ _
    exact (honly hj hx₂).1.trans (honly hk hx₃).1.symm
  case entering =>
    intro j job₂ hj hx₂ _
    obtain ⟨-, rfl⟩ := honly hj hx₂
    rw [hcmds, hheld, hstored, hout]
    exact ⟨hadd, hempty, hunstored, hnone⟩
  case unmoved =>
    intro j k job₂ job₃ _ hk _ hx₃ _ _
    obtain ⟨-, rfl⟩ := honly hk hx₃
    exact hmoves
  case settling =>
    intro j job₂ hj hsettle c' hc'
    obtain ⟨-, rfl⟩ := honly hj (hnamed j job₂ hj (List.ne_nil_of_mem hc'))
    exact absurd hsettle hkinds.2
  case kept =>
    intro hstored'
    rw [hstored, hunstored] at hstored'
    cases hstored'
  case accepted =>
    intro haccepted'
    rw [haccepted] at haccepted'
    rw [hstored]
    exact h.accepted haccepted'
  case out =>
    intro hsome
    rw [hout, hnone] at hsome
    exact absurd rfl hsome
  case fresh =>
    intro hfalse
    rw [hused] at hfalse
    cases hfalse
  case once =>
    rw [htwice]
    exact h.once

/-- A dequeue that nobody moves the message after returns it. -/
theorem Tracked.hand (h : Tracked q x) (hworld : q'.1 = q.1)
    (hqueue : ∀ e ∈ q.1.held x, e.1 ≠ .queue)
    (hothers : ∀ j job, q.1.clients j = some (.working job) → x ∈ job.ids →
      job.kind.moves = false ∧ (job.kind.enqueues = true → job.cmdsOf x = []))
    (hused : q'.2.used x = q.2.used x) (husedTrue : q.2.used x = true)
    (hstored : q'.2.stored x = q.2.stored x) (hsettled : q'.2.settled x = q.2.settled x)
    (haccepted : q'.2.accepted x = q.2.accepted x) (htwice : q'.2.twice x = q.2.twice x) :
    Tracked q' x := by
  obtain ⟨w, log⟩ := q
  obtain ⟨w', log'⟩ := q'
  obtain rfl : w' = w := hworld
  refine
    { h with
      moving := ?_, entering := ?_, kept := ?_, accepted := ?_, out := ?_, fresh := ?_, once := ?_ }
  · rw [hsettled]
    exact h.moving
  · rw [hstored]
    intro j job hj hx henqueues
    have hentering := h.entering j job hj hx henqueues
    rw [(hothers j job hj hx).2 henqueues] at hentering ⊢
    exact hentering
  · rw [hstored, hsettled]
    exact h.kept
  · rw [haccepted, hstored]
    exact h.accepted
  · refine fun _ => ⟨hqueue, fun j job hj hx => ?_⟩
    have hmoves := (hothers j job hj hx).1
    refine ⟨?_, fun hnack => ?_⟩
    · by_contra hdequeues
      rw [Kind.moves_of_dequeues (Bool.eq_true_of_not_eq_false hdequeues)] at hmoves
      cases hmoves
    · rw [hnack] at hmoves
      cases hmoves
  · rw [hused, husedTrue]
    intro hfalse
    cases hfalse
  · rw [htwice]
    exact h.once

/-! ## Steps that are about the message -/

/-- A client executes a command about the message. -/
theorem Tracked.work (h : Tracked q x) (job' : Job π) (hi : q.1.clients i = some (.working job))
    (hx : x ∈ job.ids) (hkind : job'.kind = job.kind) (hfound : job'.found = job.found)
    (hclients : q'.1.clients = Function.update q.1.clients i (some (.working job')))
    (hone : (q'.1.held x).length ≤ 1)
    (hmoving : ∀ j job₂, q'.1.clients j = some (.working job₂) → x ∈ job₂.ids →
      job₂.kind.moves = true →
        Progress (q'.2.settled x) job₂.kind.dequeues (q'.1.held x) (job₂.cmdsOf x))
    (hentering : ∀ j job₂, q'.1.clients j = some (.working job₂) → x ∈ job₂.ids →
      job₂.kind.enqueues = true →
        Entering (q'.2.stored x) job₂.fails (q'.2.out x) (q'.1.held x) (job₂.cmdsOf x))
    (hcmds : job.kind.enqueues = true → job'.cmdsOf x = [])
    (hsettling : job.kind = .settle → ∀ c ∈ job'.cmdsOf x, c.isRemove = true)
    (hkept : q'.2.stored x = true → q'.2.settled x = false →
      (∀ j job₂, q'.1.clients j = some (.working job₂) → ¬ job₂.between x) → q'.1.held x ≠ [])
    (haccepted : q'.2.accepted x = true → q'.2.stored x = true)
    (hout : q'.2.out x ≠ none → (∀ e ∈ q'.1.held x, e.1 ≠ .queue) ∧
      ∀ j job₂, q'.1.clients j = some (.working job₂) → x ∈ job₂.ids →
        job₂.kind.dequeues = false ∧ (job₂.kind = .nack → 2 ≤ (job₂.cmdsOf x).length))
    (hused : q'.2.used x = q.2.used x) (htwice : q'.2.twice x = q.2.twice x) : Tracked q' x := by
  have hx' : x ∈ job'.ids := by rwa [Job.ids, hfound]
  have husedTrue : q.2.used x = true := by
    by_contra hfalse
    exact (h.fresh (Bool.eq_false_of_not_eq_true hfalse)).2.2.2 i job hi hx
  -- The client was at the message, so whoever else moves or enqueues it is that client.
  refine ⟨hone, ?_, ?_, ?_, hmoving, ?_, hentering, ?_, ?_, hkept, haccepted, hout, ?_, ?_⟩
  · exact forall_working hclients (fun _ => hx') fun j job₂ _ => h.named j job₂
  · refine forall_working hclients (fun hdequeues => ?_) fun j job₂ _ => h.lone j job₂
    rw [hfound]
    exact h.lone i job hi (by rwa [← hkind])
  · refine forall_working₂ hclients (fun _ _ _ _ => rfl) (fun k job₂ hk _ => ?_)
      (fun j job₂ hj hx₂ _ => ?_) h.sole
    · rw [hkind]
      exact h.sole i k job job₂ hi hk hx
    · rw [hkind]
      exact h.sole j i job₂ job hj hi hx₂ hx
  · refine forall_working₂ hclients (fun _ _ _ _ => rfl) (fun k job₂ hk _ => ?_)
      (fun j job₂ hj hx₂ _ => ?_) h.entrant
    · rw [hkind]
      exact h.entrant i k job job₂ hi hk hx
    · rw [hkind]
      exact h.entrant j i job₂ job hj hi hx₂ hx
  · refine forall_working₂ hclients (fun _ _ henqueues hne => ?_) (fun k job₂ _ _ _ henqueues hne => ?_)
      (fun j job₂ hj hx₂ _ => ?_) h.unmoved
    · exact absurd (hcmds (by rwa [← hkind])) hne
    · exact absurd (hcmds (by rwa [← hkind])) hne
    · rw [hkind]
      exact h.unmoved j i job₂ job hj hi hx₂ hx
  · refine forall_working hclients (fun hsettle => ?_) fun j job₂ _ => h.settling j job₂
    exact hsettling (hkind.symm.trans hsettle)
  · rw [hused, husedTrue]
    intro hfalse
    cases hfalse
  · rw [htwice]
    exact h.once

/-- A message that is settled may be gone. -/
theorem Progress.shrink {settled dequeues : Bool}
    (h : Progress settled dequeues held cmds) (hsub : held'.Sublist held) :
    Progress true dequeues held' cmds := by
  rcases cmds with _ | ⟨c, _ | ⟨c', _ | ⟨c'', rest⟩⟩⟩
  · obtain ⟨-, hqueue⟩ := h
    exact ⟨fun _ => rfl, fun hdequeues e he => hqueue hdequeues e (hsub.subset he)⟩
  · obtain ⟨hadd, hempty, hplace⟩ := h
    subst hempty
    exact ⟨hadd, List.sublist_nil.mp hsub, hplace⟩
  · obtain ⟨hremove, hadd, hheld, hplace⟩ := h
    refine ⟨hremove, hadd, ?_, hplace⟩
    rcases hheld with ⟨hempty, -⟩ | hheld
    · subst hempty
      exact .inl ⟨List.sublist_nil.mp hsub, rfl⟩
    · subst hheld
      rcases List.sublist_singleton.mp hsub with hnone | hsame
      · exact .inl ⟨hnone, rfl⟩
      · exact .inr hsame
  · cases h

theorem Entering.shrink {stored fails : Bool} {out : Option ℤ}
    (h : Entering stored fails out held cmds)
    (hsub : held'.Sublist held) : Entering stored fails out held' cmds := by
  rcases cmds with _ | ⟨c, _ | ⟨c', rest⟩⟩
  · exact h
  · obtain ⟨hadd, hempty, hstored, hout⟩ := h
    subst hempty
    exact ⟨hadd, List.sublist_nil.mp hsub, hstored, hout⟩
  · cases h

/-- The job after its first command. -/
def Job.rest (job : Job π) (cmds : List (Cmd π)) (ok : Bool) : Job π :=
  { job with cmds := cmds, failed := job.failed || !ok }

theorem Job.fails_rest {ok : Bool} (h : job.fails = true) : (job.rest cmds ok).fails = true := by
  revert h
  unfold Job.fails Job.rest
  cases job.kind with
  | enqueue batch => cases batch <;> cases job.failed <;> simp
  | dequeue batch => cases batch <;> cases job.failed <;> simp
  | nack => simp
  | settle => simp

theorem Job.cmdsOf_rest {rest : List (Cmd π)} (hcmds : job.cmds = c :: rest)
    (ok : Bool) (x : String) : job.cmdsOf x =
      if c.id = x then c :: (job.rest rest ok).cmdsOf x else (job.rest rest ok).cmdsOf x := by
  simp [Job.cmdsOf, Job.rest, hcmds, List.filter_cons]

variable [DecidableEq π]

section Exec

variable {c : Cmd π} {rest : List (Cmd π)} {ok : Bool} {now : ℤ}

/-- The sets after the command was executed, or failed. -/
def World.executed (w : World π) (c : Cmd π) (now : ℤ) (ok : Bool) : World π :=
  if ok then w.after c now else w

theorem World.clients_rest (w : World π) (c : Cmd π) (now : ℤ) (ok : Bool) (i : ℕ) (job : Job π) :
    ((w.executed c now ok).setClient i (.working job)).clients =
      Function.update w.clients i (some (.working job)) := by
  cases ok <;> rfl

/-- A command takes the operation one further: the message is in one set, or about to be added. -/
theorem Progress.after {w : World π} {settled dequeues : Bool}
    (h : Progress settled dequeues (w.held c.id) (c :: rest)) (now : ℤ) :
    ((w.after c now).held c.id).length ≤ 1 ∧
      Progress settled dequeues ((w.after c now).held c.id) rest ∧
      ((w.after c now).held c.id = [] → rest ≠ [] ∧ ∀ c' ∈ rest, c'.isRemove = false) := by
  rcases rest with _ | ⟨c', _ | ⟨c'', rest'⟩⟩
  · obtain ⟨hadd, hempty, hplace⟩ := h
    rw [held_after_add hadd hempty now]
    have hsome : [(c.place, c.member now)] ≠ [] := List.cons_ne_nil _ _
    refine ⟨le_rfl, ⟨fun hnil => absurd hnil hsome, fun hdequeues e he => ?_⟩,
      fun hnil => absurd hnil hsome⟩
    rw [List.mem_singleton.mp he]
    exact hplace hdequeues
  · obtain ⟨hremove, hadd, hheld, hplace⟩ := h
    have hempty : (w.after c now).held c.id = [] := by
      rw [held_after_remove hremove]
      rcases hheld with ⟨hnil, -⟩ | hone
      · rw [hnil]
        rfl
      · rw [hone]
        simp
    rw [hempty]
    refine ⟨Nat.zero_le 1, ⟨hadd, rfl, hplace⟩, fun _ => ⟨List.cons_ne_nil _ _, ?_⟩⟩
    intro c₂ hc₂
    rw [List.mem_singleton.mp hc₂]
    exact hadd
  · cases h

/-- A message that is moved is removed and then added. -/
theorem Tracked.execMove (h : Tracked q c.id) (hi : q.1.clients i = some (.working job))
    (hcmds : job.cmds = c :: rest) (hx : c.id ∈ job.ids) (hmoves : job.kind.moves = true) :
    Tracked (((q.1.executed c now true).setClient i (.working (job.rest rest true))),
      q.2.executed job.kind c.id true) c.id := by
  have hcmdsOf := (job.cmdsOf_rest hcmds true c.id).trans (if_pos rfl)
  have hprogress := h.moving i job hi hx hmoves
  rw [hcmdsOf] at hprogress
  have henqueues := Kind.enqueues_of_moves hmoves
  have hsettle : job.kind ≠ .settle := by
    intro hkind
    rw [hkind] at hmoves
    cases hmoves
  have hsettled : (q.2.executed job.kind c.id true).settled c.id = q.2.settled c.id := by
    simp [Log.executed, hsettle]
  have hstored : (q.2.executed job.kind c.id true).stored c.id = q.2.stored c.id := by
    simp [Log.executed, henqueues]
  -- A nack forgets that the message is out, and what is out no dequeue is at.
  have hout : (q.2.executed job.kind c.id true).out c.id = none := by
    by_contra hsome
    simp only [Log.executed] at hsome
    split at hsome
    · exact hsome rfl
    · next hnack =>
      obtain ⟨-, hothers⟩ := h.out hsome
      have hdequeues := (hothers i job hi hx).1
      cases hkind : job.kind with
      | enqueue batch => rw [hkind] at hmoves; cases hmoves
      | dequeue batch => rw [hkind] at hdequeues; cases hdequeues
      | nack => exact hnack ⟨hkind, trivial⟩
      | settle => exact hsettle hkind
  have hclients := q.1.clients_rest c now true i (job.rest rest true)
  obtain ⟨hone, hprogress', hbetween⟩ := hprogress.after now
  refine h.work (job.rest rest true) hi hx rfl rfl hclients hone
    (forall_working hclients (fun _ _ => ?_) fun j job₂ hji hj hx₂ hmoves₂ => ?_)
    (forall_working hclients (fun _ henqueues₂ => ?_) fun j job₂ _ hj hx₂ henqueues₂ => ?_)
    (fun hfalse => ?_) (fun hkind => absurd hkind hsettle)
    (fun _ _ hnone hempty => hnone i _ (Function.update_self _ _ _) ⟨hmoves, hbetween hempty⟩)
    (fun haccepted => ?_) (fun hsome => absurd hout hsome) rfl rfl
  · rw [hsettled]
    exact hprogress'
  · exact absurd (h.sole j i job₂ job hj hi hx₂ hx hmoves₂ hmoves) hji
  · rw [Job.rest, henqueues] at henqueues₂
    cases henqueues₂
  · -- Whoever enqueued the message has no command left.
    have hnil : job₂.cmdsOf c.id = [] := by
      by_contra hne
      rw [h.unmoved j i job₂ job hj hi hx₂ hx henqueues₂ hne] at hmoves
      cases hmoves
    have hentering := h.entering j job₂ hj hx₂ henqueues₂
    rw [hnil] at hentering ⊢
    rw [hstored]
    exact hentering
  · rw [henqueues] at hfalse
    cases hfalse
  · rw [hstored]
    exact h.accepted haccepted

/-- A message that is enqueued is added, or its pipeline fails. -/
theorem Tracked.execEnqueue (h : Tracked q c.id) (hi : q.1.clients i = some (.working job))
    (hcmds : job.cmds = c :: rest) (hx : c.id ∈ job.ids) (henqueues : job.kind.enqueues = true)
    (hallowed : ok = false → job.kind = .enqueue true) :
    Tracked (((q.1.executed c now ok).setClient i (.working (job.rest rest ok))),
      q.2.executed job.kind c.id ok) c.id := by
  have hcmdsOf := (job.cmdsOf_rest hcmds ok c.id).trans (if_pos rfl)
  have hentering := h.entering i job hi hx henqueues
  have hunmoved : ∀ j job₂, q.1.clients j = some (.working job₂) → c.id ∈ job₂.ids →
      job₂.kind.moves = false := by
    intro j job₂ hj hx₂
    refine h.unmoved i j job job₂ hi hj hx hx₂ henqueues ?_
    rw [hcmdsOf]
    exact List.cons_ne_nil _ _
  rw [hcmdsOf] at hentering
  have hlast : (job.rest rest ok).cmdsOf c.id = [] := by
    generalize (job.rest rest ok).cmdsOf c.id = cmds at hentering
    rcases cmds with _ | ⟨c', rest'⟩
    · rfl
    · cases hentering
  rw [hlast] at hentering
  obtain ⟨hadd, hempty, hstored, hnone⟩ := hentering
  have hclients := q.1.clients_rest c now ok i (job.rest rest ok)
  have hkinds : job.kind ≠ .nack ∧ job.kind ≠ .settle := by
    constructor <;> intro hkind <;> rw [hkind] at henqueues <;> cases henqueues
  have hout : (q.2.executed job.kind c.id ok).out c.id = none := by
    simp [Log.executed, hkinds.1, hnone]
  have hstored' : (q.2.executed job.kind c.id ok).stored c.id = ok := by
    simp [Log.executed, henqueues, hstored]
  have hheld : ((q.1.executed c now ok).setClient i (.working (job.rest rest ok))).held c.id =
      if ok then [(c.place, c.member now)] else [] := by
    cases ok with
    | true => exact held_after_add hadd hempty now
    | false => exact hempty
  refine h.work (job.rest rest ok) hi hx rfl rfl hclients ?_
    (forall_working hclients (fun _ hmoves₂ => ?_) fun j job₂ _ hj hx₂ hmoves₂ => ?_)
    (forall_working hclients (fun _ _ => ?_) fun j job₂ hji hj hx₂ henqueues₂ => ?_) (fun _ => hlast) (fun hkind => absurd hkind hkinds.2)
    (fun hsome _ _ => ?_) (fun haccepted => ?_) (fun hsome => absurd hout hsome) rfl rfl
  · rw [hheld]
    split
    · exact le_rfl
    · exact Nat.zero_le 1
  · rw [Job.rest, Kind.moves_of_enqueues henqueues] at hmoves₂
    cases hmoves₂
  · rw [hunmoved j job₂ hj hx₂] at hmoves₂
    cases hmoves₂
  · rw [hlast, hstored']
    cases hok : ok with
    | true => exact .inl rfl
    | false =>
      right
      simp [Job.fails, Job.rest, hallowed hok]
  · exact absurd (h.entrant j i job₂ job hj hi hx₂ hx henqueues₂ henqueues) hji
  · rw [hstored'] at hsome
    rw [hheld, hsome]
    exact List.cons_ne_nil _ _
  · have hbefore := h.accepted haccepted
    rw [hstored] at hbefore
    cases hbefore

/-- A message that is acknowledged or deleted is removed, or not. -/
theorem Tracked.execSettle (h : Tracked q c.id) (hi : q.1.clients i = some (.working job))
    (hcmds : job.cmds = c :: rest) (hx : c.id ∈ job.ids) (hsettle : job.kind = .settle) :
    Tracked (((q.1.executed c now ok).setClient i (.working (job.rest rest ok))),
      q.2.executed job.kind c.id ok) c.id := by
  have hcmdsOf := (job.cmdsOf_rest hcmds ok c.id).trans (if_pos rfl)
  have hremove : c.isRemove = true := by
    refine h.settling i job hi hsettle c ?_
    rw [hcmdsOf]
    exact List.mem_cons_self
  have hsub : (((q.1.executed c now ok).setClient i (.working (job.rest rest ok))).held c.id).Sublist
      (q.1.held c.id) := by
    cases ok with
    | true =>
      have hheld := held_after_remove (w := q.1) hremove c.id now
      show ((q.1.after c now).held c.id).Sublist _
      rw [hheld]
      exact List.filter_sublist
    | false => exact List.Sublist.refl _
  have hclients := q.1.clients_rest c now ok i (job.rest rest ok)
  have hsettled : (q.2.executed job.kind c.id ok).settled c.id = true := by
    simp [Log.executed, hsettle]
  have hstored : (q.2.executed job.kind c.id ok).stored c.id = q.2.stored c.id := by
    simp [Log.executed, hsettle, Kind.enqueues]
  have hout : (q.2.executed job.kind c.id ok).out c.id = q.2.out c.id := by
    simp [Log.executed, hsettle]
  refine h.work (job.rest rest ok) hi hx rfl rfl hclients (hsub.length_le.trans h.one)
    (forall_working hclients (fun _ hmoves₂ => ?_) fun j job₂ _ hj hx₂ hmoves₂ => ?_)
    (forall_working hclients (fun _ henqueues₂ => ?_) fun j job₂ _ hj hx₂ henqueues₂ => ?_)
    (fun hfalse => ?_) (fun _ c' hc' => ?_) (fun _ hfree => ?_) (fun haccepted => ?_) (fun hsome => ?_) rfl rfl
  · rw [Job.rest, hsettle] at hmoves₂
    cases hmoves₂
  · rw [hsettled]
    exact (h.moving j job₂ hj hx₂ hmoves₂).shrink hsub
  · rw [Job.rest, hsettle] at henqueues₂
    cases henqueues₂
  · rw [hstored, hout]
    exact (h.entering j job₂ hj hx₂ henqueues₂).shrink hsub
  · rw [hsettle] at hfalse
    cases hfalse
  · refine h.settling i job hi hsettle c' ?_
    rw [hcmdsOf]
    exact List.mem_cons_of_mem _ hc'
  · rw [hsettled] at hfree
    cases hfree
  · rw [hstored]
    exact h.accepted haccepted
  · rw [hout] at hsome
    obtain ⟨hqueue, hothers⟩ := h.out hsome
    refine ⟨fun e he => hqueue e (hsub.subset he), forall_working hclients (fun _ => ?_)
      fun j job₂ _ => hothers j job₂⟩
    rw [Job.rest, hsettle]
    exact ⟨rfl, fun hnack => by cases hnack⟩

/-- A command about another message. -/
theorem Tracked.execOther (h : Tracked q x) (hi : q.1.clients i = some (.working job))
    (hcmds : job.cmds = c :: rest) (hne : c.id ≠ x) :
    Tracked (((q.1.executed c now ok).setClient i (.working (job.rest rest ok))),
      q.2.executed job.kind c.id ok) x := by
  have hcmdsOf := (job.cmdsOf_rest hcmds ok x).trans (if_neg hne)
  have hheld : ((q.1.executed c now ok).setClient i (.working (job.rest rest ok))).held x =
      q.1.held x := by
    cases ok with
    | true => exact held_after_of_ne hne now
    | false => rfl
  have hstored : (q.2.executed job.kind c.id ok).stored x = q.2.stored x := by
    simp [Log.executed, hne.symm]
  refine h.goOn (job.rest rest ok) hi rfl rfl hcmdsOf.symm Job.fails_rest ?_
    ⟨hheld, hstored, ?_, ?_, rfl, fun haccepted => ?_, id⟩
  · exact q.1.clients_rest c now ok i _
  · simp [Log.executed, hne.symm]
  · simp [Log.executed, hne.symm]
  · rw [hstored]
    exact h.accepted haccepted

end Exec

end

end Backbone.Queue.Redis
