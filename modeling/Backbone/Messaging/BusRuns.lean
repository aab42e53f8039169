import Backbone.Messaging.HandlerCalls

/-!
# Runs of the event bus

The calls a publish leads to are a tree, and every step of a call takes it further through its tree.
So the calls that have started come to their ends, whatever the order of their steps, unless they
wait for each other. Along careful steps nobody waits for ever, and each publish that is done has
called its handlers once. Handlers that use their bus otherwise can wait for themselves.

Reference: `backbone-messaging/src/bus.rs`.
-/

namespace Backbone.Messaging.EventBus

open Machine RwLock

variable {ε : Type}

/-! ## Calls come to their ends -/

section Ends

variable {cfg : EventBusConfig} {t : Point ε}

/-- No way on from the point is endless. -/
abbrev Ends (cfg : EventBusConfig) (t : Point ε) : Prop := Acc (World.Leads (program cfg)) t

theorem ends_of_next
    (h : ∀ s next, (instr cfg t).next s = some next → Ends cfg next) : Ends cfg t :=
  Acc.intro _ fun next ⟨s, hnext⟩ => h s next hnext

/-- A point with one way on ends where that ends. -/
theorem ends_step {next : Point ε} (hone : ∀ s, (instr cfg t).next s = some next)
    (h : Ends cfg next) : Ends cfg t :=
  ends_of_next fun s _ hnext => Option.some.inj ((hone s).symm.trans hnext) ▸ h

theorem ends_unwind (fs : List (Frame ε)) : Ends cfg ⟨fs, .unwind⟩ := by
  induction fs with
  | nil => exact ends_of_next fun s next hnext => by cases hnext
  | cons f fs ih => exact ends_step (fun _ => rfl) ih

/-- The call ends where what it was called by ends. -/
def CallEnds (cfg : EventBusConfig) (c : Call ε) : Prop :=
  ∀ fs, Ends cfg ⟨fs, .returned⟩ → Ends cfg ⟨fs, c.start⟩

section Dispatch

variable {fs : List (Frame ε)} {p : Publish ε}

/-- A handler ends when its calls do. -/
theorem ends_handling {before : ℕ} {left : List EventHandler} {calls : List (Call ε)}
    (hcalls : ∀ c ∈ calls, CallEnds cfg c) (hnext : Ends cfg ⟨fs, .next p (before + 1) left⟩) :
    Ends cfg ⟨fs, .handling ⟨p, before, left, calls⟩⟩ := by
  induction calls with
  | nil => exact ends_step (fun _ => rfl) hnext
  | cons c calls ih =>
    obtain ⟨hc, hcalls⟩ := List.forall_mem_cons.mp hcalls
    -- what the handler calls returns to the handler, with the calls behind it
    have hreturned : Ends cfg ⟨⟨p, before, left, calls⟩ :: fs, .returned⟩ :=
      ends_step (fun _ => rfl) (ih hcalls)
    exact ends_step (fun _ => rfl) (hc _ hreturned)

variable (hdoes : ∀ n h, ∀ c ∈ p.does n h, CallEnds cfg c) (hfs : Ends cfg ⟨fs, .returned⟩)
include hdoes hfs

/-- The loop of a dispatch ends when the calls of its handlers do. -/
theorem ends_next (before : ℕ) (left : List EventHandler) : Ends cfg ⟨fs, .next p before left⟩ := by
  induction left generalizing before with
  | nil => exact ends_step (fun _ => rfl) hfs
  | cons e left ih =>
    exact ends_step (fun _ => rfl) (ends_handling (hdoes before e) (ih (before + 1)))

theorem ends_lookUp : Ends cfg ⟨fs, .lookUp p⟩ := by
  refine ends_of_next fun s next h => ?_
  cases h
  exact ends_next hdoes hfs 0 _

theorem ends_send : Ends cfg ⟨fs, .send p⟩ :=
  have hdispatch : Ends cfg ⟨fs, .dispatch p⟩ := ends_step (fun _ => rfl) (ends_lookUp hdoes hfs)
  ends_step (fun _ => rfl) hdispatch

/-- An event is stored, or the panic unwinds the call. -/
theorem ends_store : Ends cfg ⟨fs, .store p⟩ := by
  refine ends_of_next fun s next h => ?_
  simp only [instr, Instr.next] at h
  split at h
  · cases h
    exact ends_step (fun _ => rfl) (ends_send hdoes hfs)
  · cases h
    exact ends_step (fun _ => rfl) (ends_unwind fs)

end Dispatch

/-- A publish ends when the calls of its handlers do. -/
theorem callEnds_publish {envelope : EventEnvelope ε} {storedAt : ℤ}
    {does : ℕ → EventHandler → List (Call ε)}
    (hdoes : ∀ n h, ∀ c ∈ does n h, CallEnds cfg c) :
    CallEnds cfg (.publish envelope storedAt does) := by
  intro fs hfs
  refine ends_of_next fun s next h => ?_
  cases h
  dsimp only
  split
  · exact ends_step (fun _ => rfl) (ends_store hdoes hfs)
  · exact ends_send hdoes hfs

theorem ends_push {fs : List (Frame ε)} (e : EventHandler) (hfs : Ends cfg ⟨fs, .returned⟩) :
    Ends cfg ⟨fs, .push e⟩ :=
  have hdrop : Ends cfg ⟨fs, .dropPushed⟩ := ends_step (fun _ => rfl) hfs
  ends_step (fun _ => rfl) hdrop

theorem callEnds_register (e : EventHandler) : CallEnds cfg (.register e : Call ε) :=
  fun _ hfs => ends_step (fun _ => rfl) (ends_push e hfs)

/-- Every call ends, by induction on what it leads to. -/
theorem callEnds (c : Call ε) : CallEnds cfg c :=
  @Call.rec ε (fun c => CallEnds cfg c) (fun calls => ∀ c ∈ calls, CallEnds cfg c)
    (fun _ _ _ hdoes => callEnds_publish hdoes) callEnds_register
    (fun _ hc => by cases hc)
    (fun _ _ hc hcalls => List.forall_mem_cons.mpr ⟨hc, hcalls⟩) c

/-- The dispatches that wait for a handler end. -/
theorem ends_returned (fs : List (Frame ε)) : Ends cfg ⟨fs, .returned⟩ := by
  induction fs with
  | nil => exact ends_of_next fun s next h => by cases h
  | cons f fs ih =>
    have hnext : Ends cfg ⟨fs, .next f.publish (f.before + 1) f.left⟩ :=
      ends_next (fun n e c _ => callEnds c) ih (f.before + 1) f.left
    exact ends_step (fun _ => rfl) (ends_handling (fun c _ => callEnds c) hnext)

theorem ends (t : Point ε) : Ends cfg t := by
  obtain ⟨fs, phase⟩ := t
  have hfs : Ends cfg ⟨fs, .returned⟩ := ends_returned fs
  have hdoes (p : Publish ε) : ∀ n h, ∀ c ∈ p.does n h, CallEnds cfg c := fun n h c _ => callEnds c
  cases phase with
  | publish envelope storedAt does => exact callEnds (.publish envelope storedAt does) fs hfs
  | askHistory p => exact ends_step (fun _ => rfl) (ends_store (hdoes p) hfs)
  | store p => exact ends_store (hdoes p) hfs
  | dropHistory p => exact ends_step (fun _ => rfl) (ends_send (hdoes p) hfs)
  | send p => exact ends_send (hdoes p) hfs
  | dispatch p => exact ends_step (fun _ => rfl) (ends_lookUp (hdoes p) hfs)
  | lookUp p => exact ends_lookUp (hdoes p) hfs
  | next p before left => exact ends_next (hdoes p) hfs before left
  | handling f =>
    exact ends_handling (fun c _ => callEnds c) (ends_next (hdoes f.publish) hfs _ _)
  | register e => exact callEnds (.register e) fs hfs
  | push e => exact ends_push e hfs
  | dropPushed => exact ends_step (fun _ => rfl) hfs
  | returned => exact hfs
  | dropPanicked => exact ends_step (fun _ => rfl) (ends_unwind fs)
  | unwind => exact ends_unwind fs

end Ends

/-! ## Runs -/

section Runs

variable (cfg : EventBusConfig)

/-- Where the steps of the calls lead. -/
def reached (acts : List (Act (Point ε))) : World LockName (Data ε) (Point ε) :=
  run (World.step (program cfg)) (World.new Data.new) acts

/-- Where the calls of `w` lead that are run in an order, up to its `k`-th. -/
def onward (w : World LockName (Data ε) (Point ε)) (f : ℕ → ℕ) (k : ℕ) :
    World LockName (Data ε) (Point ε) :=
  run (World.step (program cfg)) w (World.ordered f k)

/-- The handler was registered before the `n`-th publish began, for its event. -/
def DueIn (s : Data ε) (n : ℕ) (h : EventHandler) : Prop := ∃ b, s.begun[n]? = some b ∧ Due b h

/-- The bus serves its callers, those in its handlers included. -/
structure Serves (w : World LockName (Data ε) (Point ε)) : Prop where
  /-- No calls wait for each other, or for themselves. -/
  free : ∀ d : Set ℕ, d.Nonempty → ¬ w.Deadlocked d
  atMostOnce : ∀ n h, DueIn w.data n h → w.data.calls.count (n, h) ≤ 1
  /-- A publish that no call works on any longer has called its handlers. -/
  once : ∀ n h, DueIn w.data n h → ¬ Rounds.AtWork (rounds w) n → w.data.calls.count (n, h) = 1
  /-- Going on with whichever calls can, by careful steps, comes to where all publishes have. -/
  completes : ∀ f : ℕ → ℕ,
    (∀ k, Along (World.step (program cfg)) (Careful cfg) w (World.ordered f k)) →
    (∀ k, (∃ i, (onward cfg w f k).CanRun (program cfg) i) →
      (onward cfg w f k).CanRun (program cfg) (f k)) →
    ∃ k, ∀ n h, DueIn (onward cfg w f k).data n h → (onward cfg w f k).data.calls.count (n, h) = 1

end Runs

section Serving

variable {cfg : EventBusConfig} {w : World LockName (Data ε) (Point ε)}

/-- A call with a round of its own is not at its end. -/
theorem goes_of_jobs {t : Point ε} (h : jobs t ≠ []) : (instr cfg t).stops = false := by
  obtain ⟨fs, phase⟩ := t
  cases phase with
  | next p before left => cases left <;> rfl
  | handling f =>
    obtain ⟨p, before, left, calls⟩ := f
    cases calls <;> rfl
  | returned =>
    cases fs with
    | nil => exact absurd rfl h
    | cons f fs => rfl
  | unwind =>
    cases fs with
    | nil => exact absurd rfl h
    | cons f fs => rfl
  | _ => rfl

/-- While a publish is under way, some call can go on. -/
theorem Serving.exists_canRun (h : Serving cfg w) {n : ℕ} (hn : Rounds.AtWork (rounds w) n) :
    ∃ i, w.CanRun (program cfg) i := by
  obtain ⟨i, job, hjob, -⟩ := hn
  cases hi : w.points i with
  | none =>
    simp only [rounds, hi] at hjob
    cases hjob
  | some t =>
    rw [jobs_rounds hi] at hjob
    exact World.exists_canRun h.consistent h.fair (fun d => h.not_deadlocked) hi
      (goes_of_jobs (List.ne_nil_of_mem hjob))

theorem Serving.serves (h : Serving cfg w) {n : ℕ} (hn : w.Below n) : Serves cfg w where
  free d := h.not_deadlocked
  atMostOnce n e := fun ⟨b, hb, hdue⟩ => h.ledger.atMostOnce hb hdue
  once n e := fun ⟨b, hb, hdue⟩ hdone => h.ledger.closed n hdone b hb e hdue
  completes f hcareful hpicks := by
    obtain ⟨k, hk⟩ := World.exists_not_canRun ⟨ends⟩ hn f
    refine ⟨k, fun n e ⟨b, hb, hdue⟩ => ?_⟩
    have hserving : Serving cfg (onward cfg w f k) :=
      invariant_along (I := Serving cfg) _ (fun w a hw hc => hw.step hc) h (hcareful k)
    refine hserving.ledger.closed n (fun hwork => ?_) b hb e hdue
    exact hk (hpicks k (hserving.exists_canRun hwork))

/-- Along careful steps the bus serves its callers. -/
theorem serves_of_careful (cfg : EventBusConfig) {acts : List (Act (Point ε))}
    (h : Along (World.step (program cfg)) (Careful cfg) (World.new Data.new) acts) :
    Serves cfg (reached cfg acts) := by
  have hserving : Serving cfg (reached cfg acts) :=
    invariant_along (I := Serving cfg) _ (fun w a hw hc => hw.step hc) serving_new h
  have hnew : (World.new Data.new : World LockName (Data ε) (Point ε)).Below 0 := fun _ _ => rfl
  obtain ⟨n, hn⟩ := World.exists_below_run (P := program cfg) hnew acts
  exact hserving.serves hn

end Serving

/-! ## Runs of a few calls -/

/-- A handler of one event type, and a handler of all events. -/
def mailer : EventHandler := ⟨0, ["OrderPlaced"]⟩

def auditor : EventHandler := ⟨1, []⟩

def orderPlaced : EventEnvelope Unit := ⟨"1", "OrderPlaced", 0, none⟩

def mailSent : EventEnvelope Unit := ⟨"2", "MailSent", 0, none⟩

/-- The calls of a handler that calls nothing. -/
def quiet : ℕ → EventHandler → List (Call Unit) := fun _ _ => []

/-- A call on its way through `n` points. -/
def through (i : ℕ) (c : Call Unit) (n : ℕ) : List (Act (Point Unit)) :=
  .spawn i ⟨[], c.start⟩ :: List.replicate n (.run i)

/-- Two handlers are registered, and the first one publishes an event while it handles one. -/
def nestedPublish : List (Act (Point Unit)) :=
  through 0 (.register mailer) 3 ++ through 1 (.register auditor) 3 ++
    through 2 (.publish orderPlaced 0 fun _ h =>
      if h = mailer then [.publish mailSent 0 quiet] else []) 20

theorem serves_nestedPublish : Serves {} (reached {} nestedPublish) :=
  serves_of_careful {} (by decide +kernel)

/-- A handler registers another one while it handles an event. -/
def nestedRegister : List (Act (Point Unit)) :=
  through 0 (.register mailer) 3 ++
    through 1 (.publish orderPlaced 0 fun _ _ => [.register auditor]) 7

/-- A handler publishes an event, and a registration asks for the lock before. -/
def overtaken : List (Act (Point Unit)) :=
  through 0 (.register mailer) 3 ++
    through 1 (.publish orderPlaced 0 fun _ _ => [.publish mailSent 0 quiet]) 8 ++
    through 2 (.register auditor) 1 ++ [.run 1]

/-- A handler of an event type and of `*`, and an event of that type. -/
def everywhere : EventHandler := ⟨2, ["OrderPlaced", "*"]⟩

def namedTwice : List (Act (Point Unit)) :=
  through 0 (.register everywhere) 3 ++ through 1 (.publish orderPlaced 0 quiet) 12

/-- A handler that registers a handler waits for its own dispatch; so does one that publishes an
event behind a registration that waits for it. A handler that names the type and `*` is called
twice. -/
theorem not_serves : (reached {} nestedRegister).Deadlocked {1} ∧
    (reached {} overtaken).Deadlocked {1, 2} ∧
    (reached {} namedTwice).data.calls.count (0, everywhere) = 2 := by
  refine ⟨?_, ?_, by decide +kernel⟩
  · rintro i rfl
    exact ⟨.handlers, ⟨.write, by decide +kernel⟩, 1, rfl, .read, by decide +kernel⟩
  · rintro i (rfl | rfl)
    · exact ⟨.handlers, ⟨.read, by decide +kernel⟩, 1, .inl rfl, .read, by decide +kernel⟩
    · exact ⟨.handlers, ⟨.write, by decide +kernel⟩, 1, .inl rfl, .read, by decide +kernel⟩

end Backbone.Messaging.EventBus
