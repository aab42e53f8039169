import Backbone.Lib.Rounds
import Backbone.Messaging.HandlerLocks

/-!
# Handlers are called once

A publish is a round of calls: it looks its handlers up when it holds the guard, and calls them in
their turn; a handler that publishes opens another round meanwhile. The map has a handler as often
as it was registered and as often as it names the type, so a lookup finds each handler once that is
registered once. What a call leads to is finite, and so the calls on the bus come to their ends.

Reference: `backbone-messaging/src/bus.rs`.
-/

namespace Backbone.Messaging.EventBus

open Machine RwLock Rounds

variable {ε : Type} {cfg : EventBusConfig} {w : World LockName (Data ε) (Point ε)}
  {a : Act (Point ε)} {t : Point ε} (registered : List EventHandler) (c : Call ε) (x : EventHandler)
  (eventType : String)

/-! ## The map of handlers -/

theorem HandlerMap.count_get_push (h x : EventHandler) (m : HandlerMap) (key eventType : String) :
    ((HandlerMap.push h m key).get eventType).count x =
      (m.get eventType).count x + if x = h then [key].count eventType else 0 := by
  unfold HandlerMap.push
  by_cases hkey : eventType = key
  · subst hkey
    have hget : HandlerMap.get (m.insert eventType (m.get eventType ++ [h])) eventType =
        m.get eventType ++ [h] := by
      rw [HandlerMap.get, AList.lookup_insert]
      rfl
    rw [hget, List.count_append, List.count_singleton_self]
    by_cases hx : x = h
    · rw [if_pos hx, hx, List.count_singleton_self]
    · rw [if_neg hx, List.count_eq_zero.mpr fun hmem => hx (List.mem_singleton.mp hmem)]
  · have hget : HandlerMap.get (m.insert key (m.get key ++ [h])) eventType = m.get eventType := by
      rw [HandlerMap.get, AList.lookup_insert_ne hkey]
      rfl
    have hnone : [key].count eventType = 0 :=
      List.count_eq_zero.mpr fun hmem => hkey (List.mem_singleton.mp hmem)
    rw [hget, hnone, ite_self, Nat.add_zero]

theorem count_get_foldl_push (h x : EventHandler) (keys : List String) (m : HandlerMap)
    (eventType : String) :
    ((keys.foldl (HandlerMap.push h) m).get eventType).count x =
      (m.get eventType).count x + if x = h then keys.count eventType else 0 := by
  induction keys generalizing m with
  | nil => simp
  | cons key keys ih =>
    have hcount : (key :: keys).count eventType = [key].count eventType + keys.count eventType := by
      rw [← List.count_append, List.singleton_append]
    rw [List.foldl_cons, ih, HandlerMap.count_get_push, hcount]
    split <;> omega

/-- The map of handlers after some registrations. -/
def registerAll (registered : List EventHandler) : HandlerMap := registered.foldl registerHandler ∅

/-- The map has a handler under a key as often as it was registered and has the key. -/
theorem count_get_registerAll :
    ((registerAll registered).get eventType).count x =
      registered.count x * x.keys.count eventType := by
  have hfold : ∀ (registered : List EventHandler) (m : HandlerMap),
      ((registered.foldl registerHandler m).get eventType).count x =
        (m.get eventType).count x + registered.count x * x.keys.count eventType := by
    intro registered
    induction registered with
    | nil => simp
    | cons h registered ih =>
      intro m
      rw [List.foldl_cons, ih, registerHandler, count_get_foldl_push, List.count_cons]
      by_cases hx : x = h
      · subst hx
        rw [if_pos rfl, if_pos (beq_self_eq_true x), Nat.add_mul, Nat.one_mul]
        omega
      · rw [if_neg hx, if_neg (by simpa using Ne.symm hx), Nat.add_zero, Nat.add_zero]
  have hempty : (HandlerMap.get ∅ eventType).count x = 0 := by
    rw [HandlerMap.get, AList.lookup_empty]
    rfl
  rw [registerAll, hfold, hempty, Nat.zero_add]

/-- A lookup finds a handler as often as it is registered under the event's type and under `*`. -/
theorem count_handlersToCall :
    (handlersToCall (registerAll registered) eventType).count x =
      registered.count x * (x.keys.count eventType + x.keys.count "*") := by
  rw [handlersToCall, List.count_append, count_get_registerAll, count_get_registerAll, Nat.mul_add]

/-! ## Rounds -/

/-- The round of the call under way. -/
def Phase.job : Phase ε → Option (Job EventHandler)
  | .askHistory p | .store p | .dropHistory p | .send p | .dispatch p | .lookUp p =>
    some (p.serial, none)
  | .next p _ left => some (p.serial, some left)
  | .handling f => some (f.publish.serial, some f.left)
  | .publish _ _ _ | .register _ | .push _ | .dropPushed | .returned | .dropPanicked | .unwind =>
    none

/-- The rounds of a call, the innermost in front. -/
def jobs (t : Point ε) : List (Job EventHandler) :=
  t.phase.job.toList ++ t.frames.map fun f => (f.publish.serial, some f.left)

/-- The rounds of all calls. -/
def rounds (w : World LockName (Data ε) (Point ε)) :
    Rounds.State ℕ EventHandler (EventEnvelope ε × List EventHandler) where
  begun := w.data.begun
  calls := w.data.calls
  jobs i := match w.points i with
    | none => []
    | some t => jobs t

/-- The handler was registered before the publish began, for the type of its event or for all
events. -/
def Due (b : EventEnvelope ε × List EventHandler) (h : EventHandler) : Prop :=
  h ∈ b.2 ∧ h.Wants b.1.eventType

theorem jobs_rounds {i : ℕ} (hi : w.points i = some t) : (rounds w).jobs i = jobs t := by
  simp only [rounds, hi]

/-- The publish before its lookup. -/
def Phase.pending : Phase ε → Option (Publish ε)
  | .askHistory p | .store p | .dropHistory p | .send p | .dispatch p | .lookUp p => some p
  | _ => none

/-- The call did not panic. -/
def Phase.Alive : Phase ε → Prop
  | .dropPanicked | .unwind => False
  | _ => True

/-- The map is what the registrations made it, a publish carries the event it began with, and no call
panicked. -/
structure Steady (w : World LockName (Data ε) (Point ε)) : Prop where
  map : w.data.handlers = registerAll w.data.registered
  pending : ∀ i t p, w.points i = some t → t.phase.pending = some p →
    ∃ met, w.data.begun[p.serial]? = some (p.envelope, met)
  alive : ∀ i t, w.points i = some t → t.phase.Alive

theorem Call.job_start : c.start.job = none := by cases c <;> rfl

theorem Call.pending_start : c.start.pending = none := by cases c <;> rfl

theorem Call.alive_start : c.start.Alive := by cases c <;> trivial

/-- What a step does to the rounds. -/
theorem Steady.shift (h : Steady w) {i : ℕ} {next : Point ε} (hi : w.points i = some t)
    (hsafe : Safe cfg w t) (hnext : (instr cfg t).next w.data = some next) :
    Shift Due w.data.begun w.data.calls (jobs t) ((instr cfg t).after w.data).begun
      ((instr cfg t).after w.data).calls (jobs next) := by
  obtain ⟨fs, phase⟩ := t
  cases phase with
  | publish envelope storedAt does =>
    cases hnext
    have hjobs : ∀ p : Publish ε, p.serial = w.data.begun.length →
        jobs (⟨fs, if cfg.persistEvents then .askHistory p else .send p⟩ : Point ε) =
          (w.data.begun.length, none) :: jobs ⟨fs, .publish envelope storedAt does⟩ := by
      intro p hp
      rw [← hp]
      split <;> rfl
    exact (hjobs ⟨_, _, _, _⟩ rfl) ▸ .open_ (envelope, w.data.registered) _
  | store p =>
    obtain ⟨cutoff, hcutoff⟩ := Option.isSome_iff_exists.mp hsafe
    simp only [instr, Instr.next, Instr.after, hcutoff] at hnext ⊢
    cases hnext
    exact .stay _
  | lookUp p =>
    cases hnext
    refine .find p.serial _ _ ?_
    rintro b hb a ⟨hmem, hwants⟩
    obtain ⟨met, hmet⟩ := h.pending i _ p hi rfl
    obtain rfl : b = (p.envelope, met) := Option.some.inj (hb.symm.trans hmet)
    obtain ⟨hone, hkeys⟩ := hsafe _ hb a hmem hwants
    rw [h.map, count_handlersToCall, hone, hkeys]
  | next p before left =>
    cases left with
    | nil =>
      cases hnext
      exact .close p.serial _
    | cons a left =>
      cases hnext
      exact .call p.serial a left _
  | handling f =>
    obtain ⟨p, before, left, calls⟩ := f
    cases calls with
    | nil =>
      cases hnext
      exact .stay _
    | cons c calls =>
      cases hnext
      have hjobs : jobs (⟨⟨p, before, left, calls⟩ :: fs, c.start⟩ : Point ε) =
          jobs ⟨fs, .handling ⟨p, before, left, c :: calls⟩⟩ := by
        rw [jobs, c.job_start]
        rfl
      exact hjobs ▸ .stay _
  | returned =>
    cases fs with
    | nil => cases hnext
    | cons f fs =>
      cases hnext
      exact .stay _
  | dropPanicked | unwind => exact (h.alive i _ hi).elim
  | _ =>
    cases hnext
    exact .stay _

/-! ## Steps -/

section Step

variable {t next : Point ε} {s : Data ε}

theorem map_after (cfg : EventBusConfig) (t : Point ε) (h : s.handlers = registerAll s.registered) :
    ((instr cfg t).after s).handlers = registerAll ((instr cfg t).after s).registered := by
  obtain ⟨fs, phase⟩ := t
  cases phase with
  | push e =>
    dsimp only [instr, Instr.after]
    rw [h, registerAll, registerAll, List.foldl_append]
    rfl
  | store p =>
    dsimp only [instr, Instr.after]
    split <;> exact h
  | next p before left => cases left <;> exact h
  | handling f =>
    obtain ⟨p, before, left, calls⟩ := f
    cases calls <;> exact h
  | returned => cases fs <;> exact h
  | unwind => cases fs <;> exact h
  | _ => exact h

/-- The publishes that have begun are kept. -/
theorem begun_after (cfg : EventBusConfig) (t : Point ε) (s : Data ε) :
    ∃ l, ((instr cfg t).after s).begun = s.begun ++ l := by
  obtain ⟨fs, phase⟩ := t
  have hsame : ∃ l, s.begun = s.begun ++ l := ⟨[], (List.append_nil _).symm⟩
  cases phase with
  | publish envelope storedAt does => exact ⟨_, rfl⟩
  | store p =>
    dsimp only [instr, Instr.after]
    split <;> exact hsame
  | next p before left => cases left <;> exact hsame
  | handling f =>
    obtain ⟨p, before, left, calls⟩ := f
    cases calls <;> exact hsame
  | returned => cases fs <;> exact hsame
  | unwind => cases fs <;> exact hsame
  | _ => exact hsame

theorem getElem?_begun_after {n : ℕ} {b : EventEnvelope ε × List EventHandler}
    (h : s.begun[n]? = some b) : ((instr cfg t).after s).begun[n]? = some b := by
  obtain ⟨l, hl⟩ := begun_after cfg t s
  obtain ⟨hlt, -⟩ := List.getElem?_eq_some_iff.mp h
  rw [hl, List.getElem?_append_left hlt]
  exact h

/-- A publish that looks up has begun with its event. -/
theorem pending_next (h : ∀ p, t.phase.pending = some p →
    ∃ met, s.begun[p.serial]? = some (p.envelope, met))
    (hnext : (instr cfg t).next s = some next) {p : Publish ε} (hp : next.phase.pending = some p) :
    ∃ met, ((instr cfg t).after s).begun[p.serial]? = some (p.envelope, met) := by
  have hkept {q : Publish ε} (hq : t.phase.pending = some q) :
      ∃ met, ((instr cfg t).after s).begun[q.serial]? = some (q.envelope, met) := by
    obtain ⟨met, hmet⟩ := h q hq
    exact ⟨met, getElem?_begun_after hmet⟩
  obtain ⟨fs, phase⟩ := t
  cases phase with
  | publish envelope storedAt does =>
    cases hnext
    have hself : p = ⟨s.begun.length, envelope, storedAt, does⟩ := by
      dsimp only at hp
      split at hp <;> cases hp <;> rfl
    exact ⟨s.registered, by simp [hself, instr, Instr.after]⟩
  | store q =>
    simp only [instr, Instr.next] at hnext
    split at hnext
    · cases hnext
      cases hp
      exact hkept rfl
    · cases hnext
      cases hp
  | askHistory q | dropHistory q | send q | dispatch q =>
    cases hnext
    cases hp
    exact hkept rfl
  | next q before left => cases left <;> cases hnext <;> cases hp
  | handling f =>
    obtain ⟨q, before, left, calls⟩ := f
    cases calls with
    | nil =>
      cases hnext
      cases hp
    | cons c calls =>
      cases hnext
      rw [show (⟨_, c.start⟩ : Point ε).phase.pending = none from c.pending_start] at hp
      cases hp
  | returned =>
    cases fs <;> cases hnext
    cases hp
  | unwind =>
    cases fs <;> cases hnext
    cases hp
  | _ =>
    cases hnext
    cases hp

theorem alive_next (h : t.phase.Alive) (hsafe : Safe cfg w t)
    (hnext : (instr cfg t).next s = some next) : next.phase.Alive := by
  obtain ⟨fs, phase⟩ := t
  cases phase with
  | publish envelope storedAt does =>
    cases hnext
    dsimp only
    split <;> trivial
  | store p =>
    obtain ⟨cutoff, hcutoff⟩ := Option.isSome_iff_exists.mp hsafe
    simp only [instr, Instr.next, hcutoff] at hnext
    cases hnext
    trivial
  | next q before left => cases left <;> cases hnext <;> trivial
  | handling f =>
    obtain ⟨q, before, left, calls⟩ := f
    cases calls with
    | nil =>
      cases hnext
      trivial
    | cons c calls =>
      cases hnext
      exact c.alive_start
  | returned =>
    cases fs <;> cases hnext
    trivial
  | dropPanicked | unwind => exact h.elim
  | _ =>
    cases hnext
    trivial

end Step

/-- The invariant: the locks, the map, and the account of the rounds. -/
structure Serving (cfg : EventBusConfig) (w : World LockName (Data ε) (Point ε)) : Prop
    extends Sound cfg w, Steady w where
  ledger : Ledger Due (rounds w)

theorem serving_new : Serving cfg (World.new (Data.new : Data ε)) where
  toSound := sound_new
  map := rfl
  pending i t p hi := by cases hi
  alive i t hi := by cases hi
  ledger := ledger_new

theorem fresh_of_entry (h : entry t) : t.phase.pending = none ∧ t.phase.Alive ∧ jobs t = [] := by
  obtain ⟨fs, phase⟩ := t
  cases fs with
  | cons f fs => exact h.elim
  | nil =>
    cases phase with
    | publish | register => exact ⟨rfl, trivial, rfl⟩
    | _ => exact h.elim

theorem Steady.step (h : Steady w) (hcareful : Careful cfg w a) :
    Steady (w.step (program cfg) a) := by
  rcases World.step_cases (P := program cfg) w a with hstay | ⟨i, t, -, hi, hentry, hspawn⟩ |
    ⟨i, t, rfl, hi, hblocked, hexec⟩
  · rw [hstay]
    exact h
  · rw [hspawn]
    obtain ⟨hpending, halive, -⟩ := fresh_of_entry hentry
    refine ⟨h.map, fun j t' p hj hp => ?_, fun j t' hj => ?_⟩
    · rw [World.points_setPoint] at hj
      split at hj
      · cases hj
        rw [hpending] at hp
        cases hp
      · exact h.pending j t' p hj hp
    · rw [World.points_setPoint] at hj
      split at hj
      · cases hj
        exact halive
      · exact h.alive j t' hj
  · rw [hexec]
    cases hnext : ((program cfg).instr t).next w.data with
    | none =>
      rw [World.exec_of_next_eq_none hnext]
      exact h
    | some next =>
      have hdata : (w.exec i ((program cfg).instr t)).data = (instr cfg t).after w.data :=
        World.data_exec w i _
      refine ⟨?_, fun j t' p hj hp => ?_, fun j t' hj => ?_⟩
      · rw [hdata]
        exact map_after cfg t h.map
      · rw [hdata]
        rw [World.points_exec, hnext, Option.some_or] at hj
        split at hj
        · cases hj
          exact pending_next (fun q => h.pending i t q hi) hnext hp
        · obtain ⟨met, hmet⟩ := h.pending j t' p hj hp
          exact ⟨met, getElem?_begun_after hmet⟩
      · rw [World.points_exec, hnext, Option.some_or] at hj
        split at hj
        · cases hj
          exact alive_next (h.alive i t hi) (hcareful t hi hblocked) hnext
        · exact h.alive j t' hj

theorem ledger_step (h : Ledger Due (rounds w)) (hsteady : Steady w) (hcareful : Careful cfg w a) :
    Ledger Due (rounds (w.step (program cfg) a)) := by
  rcases World.step_cases (P := program cfg) w a with hstay | ⟨i, t, -, hi, hentry, hspawn⟩ |
    ⟨i, t, rfl, hi, hblocked, hexec⟩
  · rw [hstay]
    exact h
  · -- a call that starts has no round yet
    have hjobs : (rounds (w.setPoint i t)).jobs = (rounds w).jobs := by
      funext j
      by_cases hji : j = i
      · subst hji
        rw [jobs_rounds (World.points_setPoint w j j t ▸ if_pos rfl), (fresh_of_entry hentry).2.2]
        simp only [rounds, hi]
      · simp only [rounds, World.points_setPoint, if_neg hji]
    have hrounds : rounds (w.setPoint i t) = rounds w := congrArg (Rounds.State.mk _ _) hjobs
    rw [hspawn, hrounds]
    exact h
  · rw [hexec]
    cases hnext : ((program cfg).instr t).next w.data with
    | none =>
      rw [World.exec_of_next_eq_none hnext]
      exact h
    | some next =>
      have hshift := hsteady.shift hi (hcareful t hi hblocked) hnext
      have hdata : (w.exec i ((program cfg).instr t)).data = (instr cfg t).after w.data :=
        World.data_exec w i _
      refine h.shift (i := i) (fun j hji => ?_) ?_
      · simp only [rounds, World.points_exec, if_neg hji]
      · rw [jobs_rounds hi, jobs_rounds (World.points_exec_self i hnext)]
        rw [← hdata] at hshift
        exact hshift

theorem Serving.step (h : Serving cfg w) (hcareful : Careful cfg w a) :
    Serving cfg (w.step (program cfg) a) where
  toSound := h.toSound.step hcareful
  toSteady := h.toSteady.step hcareful
  ledger := ledger_step h.ledger h.toSteady hcareful

end Backbone.Messaging.EventBus
