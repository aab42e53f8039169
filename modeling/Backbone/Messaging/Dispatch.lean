import Backbone.Messaging.IntegrationBus

/-!
# Events reach their handlers

Handlers that want an event are called until their first `Ok` or their retry limit, and the ones that
fail have their dead letter. Three things in the code get in the way: handlers of one name shadow each
other, in the order of the map's iteration; a pattern `p.*` takes events that begin with `p` and not with
`p.`; and a dead letter says 3 whatever the number of calls. `reaches_iff` says that nothing else does.

Reference: `backbone-messaging/src/integration_bus.rs`.
-/

namespace Backbone.Messaging

variable {eventType : String} {h : IntegrationEventHandler}
  {t start : String} {hs : List IntegrationEventHandler} {s pattern p : String} {seen : List String}

/-! ## Patterns -/

/-- The events a pattern stands for. -/
inductive Matches (pattern eventType : String) : Prop
  | all (h : pattern = "*")
  | under (start rest : String) (h : pattern = start ++ ".*") (h' : eventType = start ++ "." ++ rest)
  | self (h : ∀ start, pattern ≠ start ++ ".*") (h' : pattern = eventType)

theorem startsWith_iff : Text.startsWith s t = true ↔ ∃ rest, s = t ++ rest := by
  rw [Text.startsWith, List.isPrefixOf_iff_prefix]
  constructor
  · rintro ⟨rest, h⟩
    refine ⟨String.ofList rest, String.toList_inj.mp ?_⟩
    rw [String.toList_append, String.toList_ofList, h]
  · rintro ⟨rest, rfl⟩
    exact ⟨rest.toList, (String.toList_append).symm⟩

theorem stripSuffix_eq_some : Text.stripSuffix s t = some start ↔ s = start ++ t := by
  unfold Text.stripSuffix
  constructor
  · intro h
    split at h
    · rename_i hsuffix
      obtain ⟨front, hfront⟩ := List.isSuffixOf_iff_suffix.mp hsuffix
      obtain rfl := Option.some.inj h
      refine String.toList_inj.mp ?_
      rw [String.toList_append, String.toList_ofList, ← hfront]
      simp
    · cases h
  · rintro rfl
    rw [if_pos (List.isSuffixOf_iff_suffix.mpr ⟨start.toList, (String.toList_append).symm⟩)]
    refine congrArg some (String.toList_inj.mp ?_)
    rw [String.toList_ofList, String.toList_append]
    simp

theorem append_right_cancel {a b : String} (h : a ++ t = b ++ t) : a = b := by
  have := congrArg String.toList h
  rw [String.toList_append, String.toList_append] at this
  exact String.toList_inj.mp (List.append_cancel_right this)

theorem star_ne_append : "*" ≠ start ++ ".*" := by
  intro h
  have := congrArg (fun s => s.toList.length) h
  simp [String.toList_append] at this

theorem matchesPattern_star : matchesPattern "*" eventType = true := rfl

theorem matchesPattern_under :
    matchesPattern (start ++ ".*") eventType = Text.startsWith eventType start := by
  have hstar : (start ++ ".*" == "*") = false := by
    simpa using fun h => star_ne_append h.symm
  rw [matchesPattern, if_neg (by rw [hstar]; exact Bool.false_ne_true), stripSuffix_eq_some.mpr rfl]

theorem matchesPattern_self (hstar : pattern ≠ "*")
    (h : ∀ start, pattern ≠ start ++ ".*") :
    matchesPattern pattern eventType = true ↔ pattern = eventType := by
  rw [matchesPattern, if_neg (by simpa using hstar)]
  cases hstrip : Text.stripSuffix pattern ".*" with
  | none => exact beq_iff_eq
  | some start => exact absurd (stripSuffix_eq_some.mp hstrip) (h start)

/-- The pattern does not stop in the middle of a segment of the event's type. -/
def EndsAtDot (pattern eventType : String) : Prop :=
  ∀ start rest, pattern = start ++ ".*" → eventType = start ++ rest →
    ∃ rest', eventType = start ++ "." ++ rest'

theorem matches_iff :
    (matchesPattern pattern eventType = true ↔ Matches pattern eventType) ↔
      EndsAtDot pattern eventType := by
  by_cases hstar : pattern = "*"
  · subst hstar
    exact iff_of_true (iff_of_true matchesPattern_star (.all rfl))
      fun start _ h => absurd h star_ne_append
  by_cases hunder : ∃ start, pattern = start ++ ".*"
  · obtain ⟨start, rfl⟩ := hunder
    rw [matchesPattern_under, startsWith_iff]
    constructor
    · rintro h start' rest hpattern htype
      obtain rfl := append_right_cancel hpattern
      rcases h.mp ⟨rest, htype⟩ with hall | ⟨start', rest', hpattern', htype'⟩ | ⟨hself, -⟩
      · exact absurd hall.symm star_ne_append
      · obtain rfl := append_right_cancel hpattern'
        exact ⟨rest', htype'⟩
      · exact absurd rfl (hself start)
    · intro h
      constructor
      · rintro ⟨rest, htype⟩
        obtain ⟨rest', htype'⟩ := h start rest rfl htype
        exact .under start rest' rfl htype'
      · rintro (hall | ⟨start', rest', hpattern', htype'⟩ | ⟨hself, -⟩)
        · exact absurd hall.symm star_ne_append
        · obtain rfl := append_right_cancel hpattern'
          exact ⟨"." ++ rest', by rw [htype', String.append_assoc]⟩
        · exact absurd rfl (hself start)
  · have hnone : ∀ start, pattern ≠ start ++ ".*" := fun start h => hunder ⟨start, h⟩
    rw [matchesPattern_self hstar hnone]
    refine iff_of_true ⟨.self hnone, ?_⟩ fun start _ h => absurd h (hnone start)
    rintro (hall | ⟨start, -, hpattern, -⟩ | ⟨-, hself⟩)
    · exact absurd hall hstar
    · exact absurd hpattern (hnone start)
    · exact hself

/-! ## Retries -/

/-- `n` calls of a handler that is called until its first `Ok`, at most `limit` times. -/
structure Tries (answer : ℕ → Except EventError Unit) (limit n : ℕ) : Prop where
  le : n ≤ limit
  before : ∀ k, k + 1 < n → answer k ≠ .ok ()
  after : n < limit → ∃ k, n = k + 1 ∧ answer k = .ok ()

/-- Every call the limit allows fails. -/
def Fails (answer : ℕ → Except EventError Unit) (limit : ℕ) : Prop :=
  ∀ k < limit, answer k ≠ .ok ()

theorem callFrom_spec (name : String) (answer : ℕ → Except EventError Unit) (attempt left : ℕ)
    (last : Option EventError) :
    let r := callFrom name answer attempt last left
    r.1 ≤ left ∧ (∀ k, k + 1 < r.1 → answer (attempt + k) ≠ .ok ()) ∧
      ((r.2 = .ok () ∧ ∃ k, r.1 = k + 1 ∧ answer (attempt + k) = .ok ()) ∨
        ((∃ e, r.2 = .error e) ∧ r.1 = left ∧ ∀ k < left, answer (attempt + k) ≠ .ok ())) := by
  induction left generalizing attempt last with
  | zero =>
    refine ⟨Nat.le_refl _, fun k hk => ?_, .inr ⟨⟨_, rfl⟩, rfl, fun k hk => ?_⟩⟩
    · exact absurd hk (Nat.not_lt_zero _)
    · exact absurd hk (Nat.not_lt_zero _)
  | succ left ih =>
    rw [callFrom]
    cases hanswer : answer attempt with
    | ok u =>
      refine ⟨Nat.succ_le_succ (Nat.zero_le _), fun k hk => ?_, .inl ⟨rfl, 0, rfl, hanswer⟩⟩
      exact absurd (Nat.lt_of_succ_lt_succ hk) (Nat.not_lt_zero _)
    | error e =>
      obtain ⟨hle, hbefore, hend⟩ := ih (attempt + 1) (some e)
      -- The calls after this one are those from the next attempt on.
      have hshift : ∀ n, (∀ k, k < n → answer (attempt + 1 + k) ≠ .ok ()) →
          ∀ k, k < n + 1 → answer (attempt + k) ≠ .ok () := by
        intro n h k hk
        cases k with
        | zero =>
          rw [Nat.add_zero, hanswer]
          intro heq
          cases heq
        | succ k =>
          rw [show attempt + (k + 1) = attempt + 1 + k by omega]
          exact h k (Nat.lt_of_succ_lt_succ hk)
      refine ⟨Nat.succ_le_succ hle, fun k hk => ?_, ?_⟩
      · exact hshift k (fun j hj => hbefore j (by dsimp only at hk; omega)) k (Nat.lt_succ_self k)
      · rcases hend with ⟨hok, k, hk, hlast⟩ | ⟨herror, hall, hfails⟩
        · refine .inl ⟨hok, k + 1, congrArg (· + 1) hk, ?_⟩
          rw [show attempt + (k + 1) = attempt + 1 + k by omega]
          exact hlast
        · exact .inr ⟨herror, congrArg (· + 1) hall, hshift left hfails⟩

/-- The calls one handler gets, and whether they fail. -/
theorem callHandlerWithRetry_spec (h : IntegrationEventHandler)
    (answer : ℕ → Except EventError Unit) :
    Tries answer h.retryLimit (callHandlerWithRetry h answer).1 ∧
      (((callHandlerWithRetry h answer).2 = .ok () ∧ ¬ Fails answer h.retryLimit) ∨
        ((∃ e, (callHandlerWithRetry h answer).2 = .error e) ∧ Fails answer h.retryLimit)) := by
  obtain ⟨hle, hbefore, hend⟩ := callFrom_spec h.name answer 0 h.retryLimit none
  simp only [Nat.zero_add] at hbefore hend
  rcases hend with ⟨hok, k, hk, hlast⟩ | ⟨herror, hall, hfails⟩
  · refine ⟨⟨hle, hbefore, fun _ => ⟨k, hk, hlast⟩⟩, .inl ⟨hok, fun hfails => ?_⟩⟩
    exact hfails k (by omega) hlast
  · refine ⟨⟨hle, hbefore, fun hlt => ?_⟩, .inr ⟨herror, hfails⟩⟩
    exact absurd hall (Nat.ne_of_lt hlt)

/-- A handler that does not fail succeeds in exactly one of its calls. -/
theorem Tries.succeeds_once {answer : ℕ → Except EventError Unit} {limit n : ℕ}
    (h : Tries answer limit n) (hfails : ¬ Fails answer limit) :
    ∃ k < n, answer k = .ok () ∧ ∀ j < n, answer j = .ok () → j = k := by
  obtain ⟨k, hk, hok⟩ : ∃ k, n = k + 1 ∧ answer k = .ok () := by
    by_cases hlt : n < limit
    · exact h.after hlt
    · -- All its calls were needed, so the last one is the one that succeeds.
      unfold Fails at hfails
      push Not at hfails
      obtain ⟨k, hk, hok⟩ := hfails
      refine ⟨k, ?_, hok⟩
      have hlast : ¬ k + 1 < n := fun hlt => h.before k hlt hok
      have := h.le
      omega
  refine ⟨k, by omega, hok, fun j hj hjok => ?_⟩
  have hlast : ¬ j + 1 < n := fun hlt => h.before j hlt hjok
  omega

/-! ## The handlers that are called -/

theorem mem_of_mem_retainNew (hmem : h ∈ retainNew seen hs) : h ∈ hs ∧ h.name ∉ seen := by
  induction hs generalizing seen with
  | nil => cases hmem
  | cons h' hs ih =>
    rw [retainNew] at hmem
    split at hmem
    · exact ⟨List.mem_cons_of_mem _ (ih hmem).1, (ih hmem).2⟩
    · rename_i hnew
      rcases List.mem_cons.mp hmem with rfl | hmem
      · exact ⟨List.mem_cons_self, hnew⟩
      · obtain ⟨hin, hname⟩ := ih hmem
        exact ⟨List.mem_cons_of_mem _ hin, fun hseen => hname (List.mem_cons_of_mem _ hseen)⟩

/-- One handler of each name is kept. -/
theorem nodup_names_retainNew (seen : List String) (hs : List IntegrationEventHandler) :
    ((retainNew seen hs).map (·.name)).Nodup := by
  induction hs generalizing seen with
  | nil => exact List.nodup_nil
  | cons h hs ih =>
    rw [retainNew]
    split
    · exact ih seen
    · rw [List.map_cons, List.nodup_cons]
      refine ⟨fun hmem => ?_, ih _⟩
      obtain ⟨h', hh', hname⟩ := List.mem_map.mp hmem
      exact (mem_of_mem_retainNew hh').2 (by simp [hname])

theorem exists_mem_retainNew
    (hmem : h ∈ hs) (hnew : h.name ∉ seen) : ∃ h' ∈ retainNew seen hs, h'.name = h.name := by
  induction hs generalizing seen with
  | nil => cases hmem
  | cons h₀ hs ih =>
    rw [retainNew]
    split
    · rename_i hseen
      rcases List.mem_cons.mp hmem with rfl | hmem
      · exact absurd hseen hnew
      · exact ih hmem hnew
    · by_cases hname : h₀.name = h.name
      · exact ⟨h₀, List.mem_cons_self, hname⟩
      · rcases List.mem_cons.mp hmem with rfl | hmem
        · exact absurd rfl hname
        · obtain ⟨h', hh', heq⟩ := ih hmem (by
            rw [List.mem_cons, not_or]
            exact ⟨Ne.symm hname, hnew⟩)
          exact ⟨h', List.mem_cons_of_mem _ hh', heq⟩

theorem mem_foldl_pushHandler {h' : IntegrationEventHandler} {patterns : List String}
    {m : HandlerMap} :
    h' ∈ ((patterns.foldl (pushHandler h) m).lookup p).getD [] ↔
      h' ∈ (m.lookup p).getD [] ∨ h' = h ∧ p ∈ patterns := by
  induction patterns generalizing m with
  | nil => simp
  | cons q patterns ih =>
    rw [List.foldl_cons, ih, pushHandler]
    by_cases hp : p = q
    · subst hp
      rw [AList.lookup_insert]
      simp only [Option.getD_some, List.mem_append, List.mem_cons]
      tauto
    · rw [AList.lookup_insert_ne hp]
      simp only [List.mem_cons, hp, false_or]

/-- The buckets of the map hold the handlers that were registered under their pattern. -/
theorem mem_registered {regs : List IntegrationEventHandler} {b : IntegrationEventBus} :
    h ∈ ((regs.foldl .registerHandler b).handlers.lookup p).getD [] ↔
      h ∈ (b.handlers.lookup p).getD [] ∨ h ∈ regs ∧ p ∈ h.eventPatterns := by
  induction regs generalizing b with
  | nil => simp
  | cons h₀ regs ih =>
    rw [List.foldl_cons, ih, IntegrationEventBus.registerHandler, mem_foldl_pushHandler,
      List.mem_cons]
    constructor
    · rintro ((hb | ⟨rfl, hp⟩) | hregs)
      · exact .inl hb
      · exact .inr ⟨.inl rfl, hp⟩
      · exact .inr ⟨.inr hregs.1, hregs.2⟩
    · rintro (hb | ⟨rfl | hregs, hp⟩)
      · exact .inl (.inl hb)
      · exact .inl (.inr ⟨rfl, hp⟩)
      · exact .inr ⟨hregs, hp⟩

/-! ## What a dispatch does -/

section Calls

variable (u : Surroundings) (envelope : IntegrationEventEnvelope)

/-- The dead letter of a handler that fails. -/
def deadLetterOf (h : IntegrationEventHandler) : Option DeadLetterEntry :=
  match (callHandlerWithRetry h (u.answer h)).2 with
  | .ok () => none
  | .error e => some ⟨envelope, h.name, e.text, 3, u.clock h⟩

theorem callAll_calls (hs : List IntegrationEventHandler) (b : IntegrationEventBus) :
    (b.callAll u envelope hs).1 =
      hs.flatMap fun h => List.replicate (callHandlerWithRetry h (u.answer h)).1 h := by
  induction hs generalizing b with
  | nil => rfl
  | cons h hs ih =>
    rw [IntegrationEventBus.callAll, List.flatMap_cons]
    exact congrArg _ (ih _)

theorem callAll_deadLetters (hs : List IntegrationEventHandler) (b : IntegrationEventBus) :
    (b.callAll u envelope hs).2.deadLetterQueue = b.deadLetterQueue ++
      if b.config.enableDeadLetterQueue then hs.filterMap (deadLetterOf u envelope) else [] := by
  induction hs generalizing b with
  | nil =>
    rw [IntegrationEventBus.callAll, List.filterMap_nil, ite_self, List.append_nil]
  | cons h hs ih =>
    rw [IntegrationEventBus.callAll, List.filterMap_cons, deadLetterOf]
    cases hcalled : (callHandlerWithRetry h (u.answer h)).2 with
    | ok x => exact ih b
    | error e =>
      cases henabled : b.config.enableDeadLetterQueue with
      | false =>
        have hrest := ih b
        rw [henabled] at hrest
        exact hrest
      | true =>
        have hrest := ih (b.addToDeadLetter envelope h.name e.text (u.clock h))
        rw [show (b.addToDeadLetter envelope h.name e.text (u.clock h)).config = b.config from rfl,
          henabled] at hrest
        refine hrest.trans ?_
        rw [IntegrationEventBus.addToDeadLetter, List.append_assoc]
        rfl

end Calls

/-- A handler wants the events of its patterns. -/
def IntegrationEventHandler.Wants (h : IntegrationEventHandler) (eventType : String) : Prop :=
  ∃ p ∈ h.eventPatterns, Matches p eventType

/-- A bus on which the handlers were registered in order. -/
def busOf (b : IntegrationEventBus) (regs : List IntegrationEventHandler) : IntegrationEventBus :=
  regs.foldl .registerHandler { b with handlers := ∅ }

/-- The event reaches the handlers that want it, in whatever order the map is iterated. -/
structure Reaches (b : IntegrationEventBus) (regs : List IntegrationEventHandler) (u : Surroundings)
    (envelope : IntegrationEventEnvelope) : Prop where
  patterns : ∀ h ∈ regs, ∀ p ∈ h.eventPatterns,
    envelope.matchesPattern p = true ↔ Matches p envelope.eventType
  called : ∀ order, order.Perm (busOf b regs).handlers.entries → ∀ h ∈ regs,
    h.Wants envelope.eventType → Tries (u.answer h) h.retryLimit
      (((busOf b regs).publishEnvelope u order envelope).1.count h)
  succeeded : ∀ order, order.Perm (busOf b regs).handlers.entries → ∀ h ∈ regs,
    h.Wants envelope.eventType → ¬ Fails (u.answer h) h.retryLimit →
      ∃ k < ((busOf b regs).publishEnvelope u order envelope).1.count h, u.answer h k = .ok () ∧
        ∀ j < ((busOf b regs).publishEnvelope u order envelope).1.count h,
          u.answer h j = .ok () → j = k
  notCalled : ∀ order, order.Perm (busOf b regs).handlers.entries → ∀ h,
    ¬ (h ∈ regs ∧ h.Wants envelope.eventType) →
      h ∉ ((busOf b regs).publishEnvelope u order envelope).1
  /-- A handler that fails has one dead letter, with the number of its calls. -/
  deadLetters : ∀ order, order.Perm (busOf b regs).handlers.entries →
    ∃ failed : List IntegrationEventHandler, ∃ new : List DeadLetterEntry, failed.Nodup ∧
      (∀ h, h ∈ failed ↔
        (h ∈ regs ∧ h.Wants envelope.eventType) ∧ Fails (u.answer h) h.retryLimit) ∧
      ((busOf b regs).publishEnvelope u order envelope).2.deadLetterQueue =
        b.deadLetterQueue ++ new ∧
      new.map (fun d => (d.handlerName, d.retryCount)) =
        failed.map fun h =>
          (h.name, ((busOf b regs).publishEnvelope u order envelope).1.count h)

/-- Nothing gets in the way. -/
structure Clear (b : IntegrationEventBus) (regs : List IntegrationEventHandler) (u : Surroundings)
    (envelope : IntegrationEventEnvelope) : Prop where
  dots : ∀ h ∈ regs, ∀ p ∈ h.eventPatterns, EndsAtDot p envelope.eventType
  names : ∀ h ∈ regs, ∀ h' ∈ regs, h.Wants envelope.eventType → h'.Wants envelope.eventType →
    h.name = h'.name → h = h'
  limits : ∀ h ∈ regs, h.Wants envelope.eventType → Fails (u.answer h) h.retryLimit →
    h.retryLimit = 3 ∧ b.config.enableDeadLetterQueue = true

section

variable {b : IntegrationEventBus} {regs : List IntegrationEventHandler} {u : Surroundings}
  {envelope : IntegrationEventEnvelope}
  {order : List (Sigma fun _ : String => List IntegrationEventHandler)}

/-- The handlers a publish calls. -/
def calledHandlers (order : List (Sigma fun _ : String => List IntegrationEventHandler))
    (envelope : IntegrationEventEnvelope) : List IntegrationEventHandler :=
  retainNew [] (collect order envelope.eventType)

theorem config_busOf : (busOf b regs).config = b.config := by
  unfold busOf
  induction regs using List.reverseRecOn with
  | nil => rfl
  | append_singleton regs h ih => rw [List.foldl_append]; exact ih

theorem deadLetterQueue_busOf : (busOf b regs).deadLetterQueue = b.deadLetterQueue := by
  unfold busOf
  induction regs using List.reverseRecOn with
  | nil => rfl
  | append_singleton regs h ih => rw [List.foldl_append]; exact ih

theorem publish_calls : ((busOf b regs).publishEnvelope u order envelope).1 =
    (calledHandlers order envelope).flatMap fun h =>
      List.replicate (callHandlerWithRetry h (u.answer h)).1 h := by
  unfold IntegrationEventBus.publishEnvelope
  split <;> exact callAll_calls u envelope _ _

theorem publish_deadLetters :
    ((busOf b regs).publishEnvelope u order envelope).2.deadLetterQueue = b.deadLetterQueue ++
      if b.config.enableDeadLetterQueue then
        (calledHandlers order envelope).filterMap (deadLetterOf u envelope) else [] := by
  have hconfig : (busOf b regs).config = b.config := config_busOf
  have hqueue : (busOf b regs).deadLetterQueue = b.deadLetterQueue := deadLetterQueue_busOf
  rw [← hconfig, ← hqueue]
  unfold IntegrationEventBus.publishEnvelope
  split <;> exact callAll_deadLetters u envelope _ _

theorem nodup_calledHandlers : (calledHandlers order envelope).Nodup :=
  (nodup_names_retainNew _ _).of_map

/-- The calls of a handler. -/
theorem count_publish (h : IntegrationEventHandler) :
    ((busOf b regs).publishEnvelope u order envelope).1.count h =
      if h ∈ calledHandlers order envelope then (callHandlerWithRetry h (u.answer h)).1 else 0 := by
  rw [publish_calls]
  have hnodup : (calledHandlers order envelope).Nodup := nodup_calledHandlers
  generalize calledHandlers order envelope = hs at hnodup ⊢
  induction hs with
  | nil => simp
  | cons h' hs ih =>
    obtain ⟨hnot, hnodup⟩ := List.nodup_cons.mp hnodup
    rw [List.flatMap_cons, List.count_append, ih hnodup, List.count_replicate]
    by_cases heq : h' = h
    · subst heq
      simp [hnot]
    · simp [heq, Ne.symm heq]

/-- The handlers of a matching pattern, in whatever order. -/
theorem mem_collect (horder : order.Perm (busOf b regs).handlers.entries) :
    h ∈ collect order envelope.eventType ↔
      h ∈ regs ∧ ∃ p ∈ h.eventPatterns, envelope.matchesPattern p = true := by
  have hbucket : ∀ p, h ∈ ((busOf b regs).handlers.lookup p).getD [] ↔
      h ∈ regs ∧ p ∈ h.eventPatterns := by
    intro p
    rw [busOf, mem_registered]
    simp
  rw [collect, List.mem_flatMap]
  constructor
  · rintro ⟨⟨p, hs⟩, hmem, hh⟩
    split at hh
    · rename_i hmatch
      have hlookup := AList.mem_lookup_iff.mpr (horder.mem_iff.mp hmem)
      obtain ⟨hregs, hp⟩ := (hbucket p).mp (by rw [Option.mem_def.mp hlookup]; exact hh)
      exact ⟨hregs, p, hp, hmatch⟩
    · cases hh
  · rintro ⟨hregs, p, hp, hmatch⟩
    have hin := (hbucket p).mpr ⟨hregs, hp⟩
    cases hlookup : (busOf b regs).handlers.lookup p with
    | none => rw [hlookup] at hin; cases hin
    | some hs =>
      rw [hlookup] at hin
      refine ⟨⟨p, hs⟩, horder.mem_iff.mpr (AList.mem_lookup_iff.mp hlookup), ?_⟩
      rw [if_pos (show Messaging.matchesPattern p envelope.eventType = true from hmatch)]
      exact hin

/-- Where every pattern means what it says, the handlers collected are those that want the event. -/
theorem mem_collect_iff_wants (hpatterns : ∀ h ∈ regs, ∀ p ∈ h.eventPatterns,
      envelope.matchesPattern p = true ↔ Matches p envelope.eventType)
    (horder : order.Perm (busOf b regs).handlers.entries) :
    h ∈ collect order envelope.eventType ↔ h ∈ regs ∧ h.Wants envelope.eventType := by
  rw [mem_collect horder]
  refine and_congr_right fun hregs => ?_
  exact exists_congr fun p => and_congr_right fun hp => hpatterns h hregs p hp

theorem deadLetterOf_spec (h : IntegrationEventHandler) :
    ((deadLetterOf u envelope h).isSome = true ↔ Fails (u.answer h) h.retryLimit) ∧
      ∀ d ∈ deadLetterOf u envelope h, d.handlerName = h.name ∧ d.retryCount = 3 := by
  unfold deadLetterOf
  rcases (callHandlerWithRetry_spec h (u.answer h)).2 with ⟨hok, hnot⟩ | ⟨⟨e, herror⟩, hfails⟩
  · rw [hok]
    exact ⟨iff_of_false Bool.false_ne_true hnot, fun d hd => by cases hd⟩
  · rw [herror]
    refine ⟨iff_of_true rfl hfails, fun d hd => ?_⟩
    obtain rfl := Option.some.inj hd
    exact ⟨rfl, rfl⟩

/-- A handler whose calls all fail is called as often as its limit allows. -/
theorem calls_of_fails (hfails : Fails (u.answer h) h.retryLimit) :
    (callHandlerWithRetry h (u.answer h)).1 = h.retryLimit := by
  have htries := (callHandlerWithRetry_spec h (u.answer h)).1
  by_contra hne
  obtain ⟨k, hk, hok⟩ := htries.after (Nat.lt_of_le_of_ne htries.le hne)
  exact hfails k (by have := htries.le; omega) hok

theorem map_filterMap_deadLetterOf (hs : List IntegrationEventHandler) :
    (hs.filterMap (deadLetterOf u envelope)).map (fun d => (d.handlerName, d.retryCount)) =
      (hs.filter fun h => (deadLetterOf u envelope h).isSome).map fun h => (h.name, 3) := by
  induction hs with
  | nil => rfl
  | cons h hs ih =>
    rw [List.filterMap_cons, List.filter_cons]
    cases hdead : deadLetterOf u envelope h with
    | none => exact ih
    | some d =>
      obtain ⟨hname, hcount⟩ := (deadLetterOf_spec h).2 d hdead
      simp only [Option.isSome_some, if_true, List.map_cons, ih, hname, hcount]

/-! ## Exactly when -/

theorem Clear.reaches (h : Clear b regs u envelope) : Reaches b regs u envelope := by
  have hpatterns : ∀ q ∈ regs, ∀ p ∈ q.eventPatterns,
      envelope.matchesPattern p = true ↔ Matches p envelope.eventType :=
    fun q hq p hp => matches_iff.mpr (h.dots q hq p hp)
  -- Whoever wants the event is the one of its name that is kept.
  have hcalled : ∀ order, order.Perm (busOf b regs).handlers.entries → ∀ q,
      q ∈ calledHandlers order envelope ↔ q ∈ regs ∧ q.Wants envelope.eventType := by
    intro order horder q
    constructor
    · intro hq
      exact (mem_collect_iff_wants hpatterns horder).mp (mem_of_mem_retainNew hq).1
    · intro hq
      obtain ⟨q', hq', hname⟩ := exists_mem_retainNew
        ((mem_collect_iff_wants hpatterns horder).mpr hq) List.not_mem_nil
      have hwants := (mem_collect_iff_wants hpatterns horder).mp (mem_of_mem_retainNew hq').1
      exact h.names q' hwants.1 q hq.1 hwants.2 hq.2 hname ▸ hq'
  have htries : ∀ order, order.Perm (busOf b regs).handlers.entries → ∀ q ∈ regs,
      q.Wants envelope.eventType → Tries (u.answer q) q.retryLimit
        (((busOf b regs).publishEnvelope u order envelope).1.count q) := by
    intro order horder q hq hwants
    rw [count_publish, if_pos ((hcalled order horder q).mpr ⟨hq, hwants⟩)]
    exact (callHandlerWithRetry_spec q (u.answer q)).1
  refine ⟨hpatterns, htries, fun order horder q hq hwants hnot => ?_,
    fun order horder q hq hmem => ?_, fun order horder => ?_⟩
  · exact (htries order horder q hq hwants).succeeds_once hnot
  · rw [publish_calls, List.mem_flatMap] at hmem
    obtain ⟨q', hq', hrep⟩ := hmem
    obtain rfl := List.eq_of_mem_replicate hrep
    exact hq ((hcalled order horder q).mp hq')
  · have hmem : ∀ q, q ∈ (calledHandlers order envelope).filter
        (fun q => (deadLetterOf u envelope q).isSome) ↔
          (q ∈ regs ∧ q.Wants envelope.eventType) ∧ Fails (u.answer q) q.retryLimit := by
      intro q
      rw [List.mem_filter, hcalled order horder, (deadLetterOf_spec q).1]
    refine ⟨_, _, nodup_calledHandlers.filter _, hmem, publish_deadLetters, ?_⟩
    by_cases hnone : (calledHandlers order envelope).filter
        (fun q => (deadLetterOf u envelope q).isSome) = []
    · -- Nobody fails.
      rw [hnone]
      split
      · rw [map_filterMap_deadLetterOf, hnone]
        rfl
      · rfl
    · obtain ⟨q₀, hq₀⟩ := List.exists_mem_of_ne_nil _ hnone
      obtain ⟨hwants₀, hfails₀⟩ := (hmem q₀).mp hq₀
      rw [if_pos (h.limits q₀ hwants₀.1 hwants₀.2 hfails₀).2, map_filterMap_deadLetterOf]
      refine List.map_congr_left fun q hq => ?_
      obtain ⟨hwants, hfails⟩ := (hmem q).mp hq
      rw [count_publish, if_pos (List.mem_of_mem_filter hq), calls_of_fails hfails,
        (h.limits q hwants.1 hwants.2 hfails).1]

theorem Reaches.clear (h : Reaches b regs u envelope) : Clear b regs u envelope := by
  have horder := List.Perm.refl (busOf b regs).handlers.entries
  obtain ⟨failed, new, -, hfailed, hnew, hletters⟩ := h.deadLetters _ horder
  rw [publish_deadLetters] at hnew
  have hnew := List.append_cancel_left hnew
  -- A handler that fails has its dead letter, which says 3.
  have hletter : ∀ q ∈ failed, b.config.enableDeadLetterQueue = true ∧
      ((busOf b regs).publishEnvelope u (busOf b regs).handlers.entries envelope).1.count q = 3 := by
    intro q hq
    have hmem : (q.name, ((busOf b regs).publishEnvelope u (busOf b regs).handlers.entries
        envelope).1.count q) ∈ new.map fun d => (d.handlerName, d.retryCount) := by
      rw [hletters]
      exact List.mem_map_of_mem hq
    rw [← hnew] at hmem
    split at hmem
    · rename_i henabled
      rw [map_filterMap_deadLetterOf] at hmem
      obtain ⟨q', -, heq⟩ := List.mem_map.mp hmem
      exact ⟨henabled, (congrArg Prod.snd heq).symm⟩
    · cases hmem
  -- A handler that wants the event is called, or it would have a dead letter without a call.
  have hkept : ∀ q ∈ regs, q.Wants envelope.eventType →
      q ∈ calledHandlers (busOf b regs).handlers.entries envelope := by
    intro q hq hwants
    by_contra hnot
    have htries := h.called _ horder q hq hwants
    rw [count_publish, if_neg hnot] at htries
    have hlimit : q.retryLimit = 0 := by
      by_contra hne
      obtain ⟨k, hk, -⟩ := htries.after (Nat.pos_of_ne_zero hne)
      cases hk
    have hfails : q ∈ failed := (hfailed q).mpr ⟨⟨hq, hwants⟩, fun k hk => by
      rw [hlimit] at hk
      exact absurd hk (Nat.not_lt_zero k)⟩
    have hthree := (hletter q hfails).2
    rw [count_publish, if_neg hnot] at hthree
    cases hthree
  refine ⟨fun q hq p hp => matches_iff.mp (h.patterns q hq p hp), ?_, ?_⟩
  · intro q hq q' hq' hwants hwants' hname
    exact List.inj_on_of_nodup_map (nodup_names_retainNew _ _) (hkept q hq hwants)
      (hkept q' hq' hwants') hname
  · intro q hq hwants hfails
    obtain ⟨henabled, hcount⟩ := hletter q ((hfailed q).mpr ⟨⟨hq, hwants⟩, hfails⟩)
    rw [count_publish, if_pos (hkept q hq hwants), calls_of_fails hfails] at hcount
    exact ⟨hcount, henabled⟩

theorem reaches_iff (b : IntegrationEventBus) (regs : List IntegrationEventHandler) (u : Surroundings)
    (envelope : IntegrationEventEnvelope) : Reaches b regs u envelope ↔ Clear b regs u envelope :=
  ⟨Reaches.clear, Clear.reaches⟩

/-! ## Three handlers that get in the way -/

/-- An event of the type. -/
def eventOf (eventType : String) : IntegrationEventEnvelope where
  id := "e-1"
  eventType := eventType
  sourceContext := "sapiens"
  aggregateId := "1"
  occurredAt := 0
  publishedAt := 0
  version := 1
  correlationId := none
  causationId := none
  payload := .null

/-- `IntegrationLoggingHandler::all`. -/
def loggingHandler (arc : ℕ) : IntegrationEventHandler where
  arc := arc
  name := "IntegrationLoggingHandler"
  eventPatterns := ["*"]
  shouldRetry := false

/-- A handler of all events of users that asks for five attempts. -/
def userHandler : IntegrationEventHandler where
  arc := 0
  name := "UserHandler"
  eventPatterns := ["sapiens.user.*"]
  maxRetries := 5

/-- Whatever a handler is called with, it answers the same. -/
def answering (answer : Except EventError Unit) : Surroundings := ⟨fun _ _ => answer, fun _ => 0⟩

/-- Of two logging handlers one is not called. A handler of the users' events is called for one of
another entity. A dead letter says 3 after five calls. -/
theorem not_reaches :
    ¬ Reaches {} [loggingHandler 0, loggingHandler 1] (answering (.ok ()))
        (eventOf "sapiens.user.created") ∧
      ¬ Reaches {} [userHandler] (answering (.ok ())) (eventOf "sapiens.username.changed") ∧
      ¬ Reaches {} [userHandler] (answering (.error .timeout)) (eventOf "sapiens.user.created") := by
  refine ⟨fun h => ?_, fun h => ?_, fun h => ?_⟩
  · have hwants : ∀ arc, (loggingHandler arc).Wants "sapiens.user.created" :=
      fun arc => ⟨"*", .head _, .all rfl⟩
    have hsame := h.clear.names _ (.head _) _ (.tail _ (.head _)) (hwants 0) (hwants 1) rfl
    exact absurd (congrArg IntegrationEventHandler.arc hsame) (by decide)
  · obtain ⟨rest, hrest⟩ := h.clear.dots _ (.head _) "sapiens.user.*" (.head _) "sapiens.user"
      "name.changed" rfl rfl
    have hprefix := startsWith_iff.mpr ⟨rest, hrest⟩
    exact absurd hprefix (by decide)
  · have hwants : userHandler.Wants "sapiens.user.created" :=
      ⟨"sapiens.user.*", .head _, .under "sapiens.user" "created" rfl rfl⟩
    obtain ⟨hlimit, -⟩ := h.clear.limits _ (.head _) hwants fun k _ heq => by cases heq
    exact absurd hlimit (by decide)

end

end Backbone.Messaging
