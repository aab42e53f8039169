import Backbone.Lib.LockRuns
import Backbone.Messaging.EventBus

/-!
# Handlers that call their bus, and its locks

`dispatch` keeps its read guard of `handlers` while it awaits a handler. A handler that registers a
handler waits for the guard of its own dispatch, and so does one that publishes an event while a
registration waits: the registration waits for the dispatch, and readers wait behind it. These are
the only deadlocks of the bus: without them a call that waits for `handlers` holds nothing, and one
that waits for `history` waits for a call that does not wait.

Reference: `backbone-messaging/src/bus.rs`.
-/

namespace Backbone.Messaging.EventBus

open Machine RwLock

variable {ε : Type} {cfg : EventBusConfig} {w : World LockName (Data ε) (Point ε)} {t : Point ε}
  {a : Act (Point ε)}

/-! ## What a step is to avoid -/

/-- The event is of a type of the handler, or the handler is for all events. -/
def EventHandler.Wants (h : EventHandler) (eventType : String) : Prop :=
  eventType ∈ h.eventTypes ∨ h.eventTypes = []

instance (h : EventHandler) (eventType : String) : Decidable (h.Wants eventType) :=
  inferInstanceAs (Decidable (_ ∨ _))

/-- Each handler that was registered before the publish began and wants its event has been registered
once by now, and is registered once under the event's type and `*`. -/
def RegisteredOnce (s : Data ε) (p : Publish ε) : Prop :=
  ∀ b ∈ s.begun[p.serial]?, ∀ h ∈ b.2, h.Wants b.1.eventType →
    s.registered.count h = 1 ∧ h.keys.count b.1.eventType + h.keys.count "*" = 1

instance (s : Data ε) (p : Publish ε) : Decidable (RegisteredOnce s p) :=
  inferInstanceAs (Decidable (∀ b ∈ s.begun[p.serial]?, ∀ h ∈ b.2, _ → _))

/-- No handler registers a handler, and one that publishes an event finds no call that waits for
`handlers`. The event can be stored, and its handlers are registered once. -/
def Safe (cfg : EventBusConfig) (w : World LockName (Data ε) (Point ε)) : Point ε → Prop
  | ⟨fs, .register _⟩ => fs.isEmpty = true
  | ⟨fs, .dispatch _⟩ => fs.isEmpty = true ∨ (w.locks .handlers).queue.isEmpty = true
  | ⟨_, .store p⟩ => (retentionCutoff p.storedAt cfg.retentionSeconds).isSome = true
  | ⟨_, .lookUp p⟩ => RegisteredOnce w.data p
  | _ => True

instance (cfg : EventBusConfig) (w : World LockName (Data ε) (Point ε)) :
    DecidablePred (Safe cfg w) := by
  rintro ⟨_, ⟨⟩⟩ <;> dsimp only [Safe] <;> infer_instance

/-- A call that goes on is safe where it is. -/
def Careful (cfg : EventBusConfig) (w : World LockName (Data ε) (Point ε)) : Act (Point ε) → Prop
  | .spawn _ _ => True
  | .run i => ∀ t ∈ w.points i, w.blocked (program cfg) i t = false → Safe cfg w t

instance (cfg : EventBusConfig) (w : World LockName (Data ε) (Point ε)) :
    ∀ a, Decidable (Careful cfg w a)
  | .spawn _ _ => isTrue trivial
  | .run i => inferInstanceAs (Decidable (∀ t ∈ w.points i, _ → _))

/-! ## What holds in every run -/

/-- The locks agree with the points of the calls. -/
structure Kept (cfg : EventBusConfig) (w : World LockName (Data ε) (Point ε)) : Prop where
  consistent : w.Consistent (program cfg)
  fair : ∀ k, (w.locks k).Fair
  accounted : w.Accounted (program cfg)

theorem holds_of_entry (h : entry t) : holds t = [] := by
  obtain ⟨fs, phase⟩ := t
  cases fs with
  | cons f fs => exact h.elim
  | nil =>
    cases phase with
    | publish | register => rfl
    | _ => exact h.elim

theorem kept_new : Kept cfg (World.new (Data.new : Data ε)) where
  consistent := World.consistent_new _
  fair _ := Lock.fair_free
  accounted := World.accounted_new _

theorem Kept.step (h : Kept cfg w) (a : Act (Point ε)) : Kept cfg (w.step (program cfg) a) where
  consistent := h.consistent.step a
  fair := World.locks_step (fun _ i m hl => hl.request i m) (fun _ i hl => hl.release i) h.fair a
  accounted := h.accounted.step h.consistent (fun _ => holds_of_entry) a

/-- The handlers' lock is asked for at two points. -/
theorem acquire_handlers {next : Point ε} {m : Mode} (h : instr cfg t = .acquire .handlers m next) :
    (∃ fs e, t = ⟨fs, .register e⟩ ∧ m = .write ∧ next = ⟨fs, .push e⟩) ∨
      ∃ fs p, t = ⟨fs, .dispatch p⟩ ∧ m = .read ∧ next = ⟨fs, .lookUp p⟩ := by
  obtain ⟨fs, phase⟩ := t
  cases phase with
  | register e =>
    cases h
    exact .inl ⟨fs, e, rfl, rfl, rfl⟩
  | dispatch p =>
    cases h
    exact .inr ⟨fs, p, rfl, rfl, rfl⟩
  | next p before left => cases left <;> cases h
  | handling f =>
    obtain ⟨p, before, left, calls⟩ := f
    cases calls <;> cases h
  | returned => cases fs <;> cases h
  | unwind => cases fs <;> cases h
  | _ => cases h

/-! ## The two ways to wait for oneself -/

/-- A handler that registers a handler, or publishes an event while a call waits for `handlers`,
waits for its own dispatch. -/
theorem Kept.deadlocked (h : Kept cfg w) {i : ℕ} (hi : w.points i = some t)
    (hblocked : w.blocked (program cfg) i t = false) (hinside : t.frames ≠ [])
    (hasks : (∃ e, t.phase = .register e) ∨
      (∃ p, t.phase = .dispatch p) ∧ (w.locks .handlers).queue ≠ []) :
    (w.step (program cfg) (.run i)).Deadlocked {i} := by
  have hmem : LockName.handlers ∈ holds t := by
    refine List.mem_append_right _ ?_
    obtain ⟨f, fs, hfs⟩ := List.exists_cons_of_ne_nil hinside
    rw [hfs]
    exact List.mem_cons_self
  obtain ⟨m, hm⟩ := h.accounted.holds h.consistent hi hblocked hmem
  -- the request of either one cannot be granted
  obtain ⟨m', next, hinstr, hrefused⟩ : ∃ m' next, instr cfg t = .acquire .handlers m' next ∧
      ((w.locks .handlers).queue ≠ [] ∨ admits m' (w.locks .handlers).holders = false) := by
    obtain ⟨fs, phase⟩ := t
    rcases hasks with ⟨e, he⟩ | ⟨⟨p, hp⟩, hqueue⟩
    · obtain rfl : phase = .register e := he
      refine ⟨_, _, rfl, .inr ?_⟩
      exact List.isEmpty_eq_false_iff.mpr (List.ne_nil_of_mem hm)
    · obtain rfl : phase = .dispatch p := hp
      exact ⟨_, _, rfl, .inl hqueue⟩
  have hstep : w.step (program cfg) (.run i) = w.exec i (.acquire .handlers m' next) := by
    simp only [World.step, hi, hblocked]
    exact congrArg (w.exec i) hinstr
  have hlock : (w.step (program cfg) (.run i)).locks .handlers =
      (w.locks .handlers).request i m' := by
    rw [hstep, World.exec, World.locks_setPoint, World.locks_setLock, if_pos rfl]
  rintro j rfl
  refine ⟨.handlers, ⟨m', ?_⟩, j, rfl, m, ?_⟩
  · rw [hlock]
    exact Lock.mem_queue_request hrefused
  · rw [hlock]
    exact Lock.mem_holders_request hm

/-! ## The invariant -/

/-- `register_handler`, called from outside all handlers, has asked for the write guard and has not
dropped it. -/
def Writing : Point ε → Prop
  | ⟨[], .push _⟩ | ⟨[], .dropPushed⟩ => True
  | _ => False

/-- The locks agree with the points, writers are outside all handlers, and so is whoever waits for
`handlers`. -/
structure Sound (cfg : EventBusConfig) (w : World LockName (Data ε) (Point ε)) : Prop
    extends Kept cfg w where
  writes : w.WritesAt .handlers Writing
  outside : ∀ i t, w.points i = some t → w.Waits i .handlers → t.frames = []

theorem sound_new : Sound cfg (World.new (Data.new : Data ε)) where
  toKept := kept_new
  writes e he := by cases he
  outside i t hi := by cases hi

/-- The write guard is dropped when `register_handler` returns. -/
theorem Writing.next {next : Point ε} {s : Data ε} (h : Writing t)
    (hnext : (instr cfg t).next s = some next) (hholds : .handlers ∈ holds next) :
    Writing next := by
  obtain ⟨fs, phase⟩ := t
  cases fs with
  | cons f fs => exact h.elim
  | nil =>
    cases phase with
    | push =>
      cases hnext
      trivial
    | dropPushed =>
      cases hnext
      cases hholds
    | _ => exact h.elim

/-- A handler that publishes an event holds the lock as a reader. -/
theorem Sound.admits_read (h : Sound cfg w) {i : ℕ} {fs : List (Frame ε)} {p : Publish ε}
    (hi : w.points i = some ⟨fs, .dispatch p⟩)
    (hblocked : w.blocked (program cfg) i ⟨fs, .dispatch p⟩ = false) (hinside : fs ≠ []) :
    admits .read (w.locks .handlers).holders = true := by
  have hmem : LockName.handlers ∈ holds (⟨fs, .dispatch p⟩ : Point ε) := by
    obtain ⟨f, fs', rfl⟩ := List.exists_cons_of_ne_nil hinside
    exact List.mem_cons_self
  obtain ⟨m, hm⟩ := h.accounted.holds h.consistent hi hblocked hmem
  have hread : m = .read := by
    cases m with
    | read => rfl
    | write =>
      obtain ⟨t, ht, hwriting⟩ := h.writes (i, .write) (List.mem_append_left _ hm) rfl
      rw [hi] at ht
      cases ht
      cases fs <;> exact hwriting.elim
  rw [admits_read_iff]
  rcases (h.fair .handlers).compatible with hall | ⟨e, he⟩
  · exact hall
  · intro e' he'
    rw [he, List.mem_singleton] at he' hm
    rw [he', ← hm]
    exact hread

theorem Sound.outside_step (h : Sound cfg w) (hcareful : Careful cfg w a)
    (j : ℕ) (t : Point ε) (hj : (w.step (program cfg) a).points j = some t)
    (hwaits : (w.step (program cfg) a).Waits j .handlers) : t.frames = [] := by
  rcases World.step_cases (P := program cfg) w a with hstay | ⟨i, t₀, -, hi, -, hspawn⟩ |
    ⟨i, t₀, rfl, hi, hblocked, hexec⟩
  · rw [hstay] at hj hwaits
    exact h.outside j t hj hwaits
  · rw [hspawn] at hj hwaits
    have hji : j ≠ i := by
      rintro rfl
      obtain ⟨t', rest, ht', -⟩ := h.consistent.waits hwaits
      rw [hi] at ht'
      cases ht'
    rw [World.points_setPoint, if_neg hji] at hj
    exact h.outside j t hj hwaits
  · rw [hexec] at hj hwaits
    have hsafe := hcareful t₀ hi hblocked
    by_cases hji : j = i
    · subst hji
      -- the call did not wait before, so it is its own request that waits
      have hbefore := h.consistent.not_waits hi hblocked .handlers
      obtain ⟨m, hm⟩ := hwaits
      rcases World.locks_exec w j ((program cfg).instr t₀) .handlers with hsame |
        ⟨m', next, hins, hreq⟩ | ⟨next, -, hrel⟩
      · rw [hsame] at hm
        exact absurd ⟨m, hm⟩ hbefore
      · have hnext : ((program cfg).instr t₀).next w.data = some next := by
          rw [hins]
          rfl
        rw [World.points_exec_self j hnext] at hj
        cases hj
        rcases acquire_handlers hins with ⟨fs, e, rfl, rfl, rfl⟩ | ⟨fs, p, rfl, rfl, rfl⟩
        · exact List.isEmpty_iff.mp hsafe
        · rcases hsafe with houter | hqueue
          · exact List.isEmpty_iff.mp houter
          · by_contra hinside
            have hgranted := Lock.queue_request_of_granted (i := j) (List.isEmpty_iff.mp hqueue)
              (h.admits_read hi hblocked hinside)
            rw [hreq, hgranted] at hm
            cases hm
      · rw [hrel] at hm
        exact absurd ⟨m, Lock.queue_release _ _ hm⟩ hbefore
    · rw [World.points_exec, if_neg hji] at hj
      refine h.outside j t hj ?_
      obtain ⟨m, hm⟩ := hwaits
      rcases World.locks_exec w i ((program cfg).instr t₀) .handlers with hsame |
        ⟨m', next, -, hreq⟩ | ⟨next, -, hrel⟩
      · rw [hsame] at hm
        exact ⟨m, hm⟩
      · rw [hreq] at hm
        rcases Lock.queue_request _ _ _ hm with hold | hself
        · exact ⟨m, hold⟩
        · exact absurd (Prod.mk.inj hself).1 hji
      · rw [hrel] at hm
        exact ⟨m, Lock.queue_release _ _ hm⟩

theorem Sound.step (h : Sound cfg w) (hcareful : Careful cfg w a) :
    Sound cfg (w.step (program cfg) a) where
  toKept := h.toKept.step a
  writes := by
    refine h.writes.step h.consistent ?_ fun t s next => Writing.next
    rintro i t next rfl hi hblocked hins
    have hsafe := hcareful t hi hblocked
    rcases acquire_handlers hins with ⟨fs, e, rfl, -, rfl⟩ | ⟨fs, p, rfl, hmode, -⟩
    · obtain rfl := List.isEmpty_iff.mp hsafe
      trivial
    · cases hmode
  outside := h.outside_step hcareful

/-! ## No deadlock -/

/-- `handlers` is taken before `history`. -/
def rank : LockName → ℕ
  | .handlers => 0
  | .history => 1

/-- Behind the guard it took last, a call holds those of its dispatches. -/
theorem holds_behind {k k' : LockName} {rest : List LockName} (hholds : holds t = k' :: rest)
    (hk : k ∈ rest) : k = .handlers ∧ t.frames ≠ [] := by
  have hframes : ∀ k ∈ t.frames.map fun _ => LockName.handlers, k = .handlers := by
    intro k hk
    obtain ⟨f, -, rfl⟩ := List.mem_map.mp hk
    rfl
  have hmem : k ∈ t.frames.map fun _ => LockName.handlers := by
    obtain ⟨fs, phase⟩ := t
    unfold holds at hholds
    dsimp only at hholds ⊢
    cases hphase : phase.holds with
    | nil =>
      rw [hphase, List.nil_append] at hholds
      rw [hholds]
      exact List.mem_cons_of_mem _ hk
    | cons k₀ ks =>
      have hone : ks = [] := by cases phase <;> cases hphase <;> rfl
      rw [hphase, hone] at hholds
      obtain ⟨-, rfl⟩ := List.cons.inj hholds
      exact hk
  refine ⟨hframes k hmem, ?_⟩
  rintro hnil
  rw [hnil] at hmem
  cases hmem

theorem Sound.not_deadlocked (h : Sound cfg w) {d : Set ℕ} (hd : d.Nonempty) :
    ¬ w.Deadlocked d := by
  refine not_deadlocked_of_rank rank 1 (fun k => by cases k <;> decide) ?_ hd
  intro i k k' hholds hwaits
  obtain ⟨t, rest, ht, heq, hmem⟩ := h.consistent.holds_waits hholds hwaits
  obtain ⟨rfl, hinside⟩ := holds_behind heq hmem
  cases k' with
  | handlers => exact absurd (h.outside i t ht hwaits) hinside
  | history => exact Nat.one_pos

end Backbone.Messaging.EventBus
