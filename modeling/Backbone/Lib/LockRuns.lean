import Mathlib.Data.DFinsupp.WellFounded
import Backbone.Lib.RwLock

/-!
# Calls over read-write locks get to their ends

The locks never withhold what they could grant, and every guard of the account is on its lock. So
where no set of calls is deadlocked and some call is not at its end, some call can go on. When the
points of a program are well-founded along its instructions, the calls that have started can be run
in any order, and after finitely many steps the order asks for one that cannot go on. -/

namespace Backbone.RwLock

open Machine

variable {i : ℕ} {holders : List (ℕ × Mode)}

/-! ## Locks -/

/-- A request waits only behind a holder, and a writer holds alone. -/
structure Lock.Fair (l : Lock) : Prop where
  served : l.queue ≠ [] → l.holders ≠ []
  compatible : (∀ e ∈ l.holders, e.2 = .read) ∨ ∃ e, l.holders = [e]

theorem admits_nil (m : Mode) : admits m [] = true := by cases m <;> rfl

theorem admits_read_iff : admits .read holders = true ↔ ∀ e ∈ holders, e.2 = .read := by
  simp [admits]

/-- Whom the lock admits holds it beside readers if it reads, and alone if it writes. -/
theorem compatible_of_admits {e : ℕ × Mode}
    (h : admits e.2 holders = true) :
    (∀ e' ∈ holders ++ [e], e'.2 = .read) ∨ ∃ e', holders ++ [e] = [e'] := by
  obtain ⟨i, m⟩ := e
  cases m with
  | read =>
    left
    intro e' he'
    rcases List.mem_append.mp he' with he' | he'
    · exact admits_read_iff.mp h e' he'
    · rw [List.mem_singleton.mp he']
  | write =>
    right
    have hnil : holders = [] := List.isEmpty_iff.mp h
    exact ⟨(i, .write), by rw [hnil]; rfl⟩

theorem fair_promote (holders queue : List (ℕ × Mode))
    (h : (∀ e ∈ holders, e.2 = .read) ∨ ∃ e, holders = [e]) : (promote holders queue).Fair := by
  induction queue generalizing holders with
  | nil => exact ⟨fun hne => absurd rfl hne, h⟩
  | cons e queue ih =>
    unfold promote
    split
    · rename_i hadmits
      exact ih _ (compatible_of_admits hadmits)
    · rename_i hrefused
      refine ⟨fun _ hnil => hrefused ?_, h⟩
      have hnil : holders = [] := hnil
      rw [hnil]
      exact admits_nil e.2

namespace Lock

variable {l : Lock} {m : Mode} {e : ℕ × Mode}

theorem fair_free : free.Fair := ⟨fun h => absurd rfl h, .inl fun _ he => by cases he⟩

theorem Fair.request (h : l.Fair) (i : ℕ) (m : Mode) : (l.request i m).Fair := by
  unfold Lock.request
  split
  · rename_i hgranted
    rw [Bool.and_eq_true] at hgranted
    refine ⟨fun hne => absurd (List.isEmpty_iff.mp hgranted.1) hne, ?_⟩
    exact @compatible_of_admits l.holders (i, m) hgranted.2
  · rename_i hrefused
    refine ⟨fun _ => ?_, h.compatible⟩
    intro hnil
    dsimp only at hnil
    -- a free lock has no queue, and admits everybody
    have hqueue : l.queue = [] := by
      by_contra hne
      exact h.served hne hnil
    rw [hqueue, hnil, admits_nil] at hrefused
    exact hrefused rfl

theorem Fair.release (h : l.Fair) (i : ℕ) : (l.release i).Fair := by
  refine fair_promote _ _ ?_
  rcases h.compatible with hread | ⟨e, he⟩
  · exact .inl fun e he => hread e (List.mem_of_mem_eraseP he)
  · rw [he]
    by_cases hi : (e.1 == i) = true
    · rw [List.eraseP_cons_of_pos (by exact hi)]
      exact .inl fun e' he' => by cases he'
    · rw [List.eraseP_cons_of_neg (by exact hi)]
      exact .inr ⟨e, rfl⟩

theorem mem_request (he : e ∈ (l.request i m).holders ++ (l.request i m).queue) :
    e ∈ l.holders ++ l.queue ∨ e = (i, m) := by
  unfold Lock.request at he
  split at he
  · simpa [or_assoc, or_comm, or_left_comm] using he
  · simpa [or_assoc] using he

theorem mem_release (he : e ∈ (l.release i).holders ++ (l.release i).queue) :
    e ∈ l.holders ++ l.queue := by
  obtain ⟨n, hn⟩ := promote_eq (l.holders.eraseP fun e => e.1 == i) l.queue
  rw [Lock.release, hn] at he
  dsimp only at he
  rw [List.append_assoc, List.take_append_drop] at he
  rcases List.mem_append.mp he with he | he
  · exact List.mem_append_left _ (List.mem_of_mem_eraseP he)
  · exact List.mem_append_right _ he

theorem mem_holders_request (he : e ∈ l.holders) : e ∈ (l.request i m).holders := by
  unfold Lock.request
  split
  · exact List.mem_append_left _ he
  · exact he

/-- A request that the lock admits, with nobody waiting, is not left in the queue. -/
theorem queue_request_of_granted (hqueue : l.queue = [])
    (hadmits : admits m l.holders = true) : (l.request i m).queue = [] := by
  simp [Lock.request, hqueue, hadmits]

/-- A request that cannot be granted waits. -/
theorem mem_queue_request (h : l.queue ≠ [] ∨ admits m l.holders = false) :
    (i, m) ∈ (l.request i m).queue := by
  have hrefused : (l.queue.isEmpty && admits m l.holders) = false := by
    rcases h with hqueue | hadmits
    · rw [List.isEmpty_eq_false_iff.mpr hqueue, Bool.false_and]
    · rw [hadmits, Bool.and_false]
  rw [Lock.request, hrefused]
  simp

end Lock

variable {κ σ τ : Type} {ins : Instr κ σ τ}

/-- The data behind the instruction. -/
def Instr.after (s : σ) : Instr κ σ τ → σ
  | .access f => (f s).1
  | _ => s

/-- The call is at its end. -/
def Instr.stops : Instr κ σ τ → Bool
  | .stop => true
  | _ => false

theorem Instr.WellLocked.stops {holds : τ → List κ} {t : τ}
    (h : ins.WellLocked holds t) (hstops : ins.stops = true) : holds t = [] := by
  cases ins with
  | stop => exact h
  | acquire | release | access => cases hstops

theorem Instr.exists_next (s : σ) (h : ins.stops = false) : ∃ t, ins.next s = some t := by
  cases ins with
  | stop => cases h
  | acquire | release | access => exact ⟨_, rfl⟩

namespace World

variable [DecidableEq κ] {P : Program κ σ τ} {w : World κ σ τ} {ins : Instr κ σ τ} {t : τ} {n : ℕ}
  {w : World κ σ τ} {next : τ}

theorem locks_exec (w : World κ σ τ) (i : ℕ) (ins : Instr κ σ τ) (k : κ) :
    (w.exec i ins).locks k = w.locks k ∨
      (∃ m next, ins = .acquire k m next ∧ (w.exec i ins).locks k = (w.locks k).request i m) ∨
      ∃ next, ins = .release k next ∧ (w.exec i ins).locks k = (w.locks k).release i := by
  cases ins with
  | acquire k' m next =>
    rw [World.exec, locks_setPoint, locks_setLock]
    by_cases hk : k = k'
    · subst hk
      exact .inr (.inl ⟨m, next, rfl, if_pos rfl⟩)
    · exact .inl (if_neg hk)
  | release k' next =>
    rw [World.exec, locks_setPoint, locks_setLock]
    by_cases hk : k = k'
    · subst hk
      exact .inr (.inr ⟨next, rfl, if_pos rfl⟩)
    · exact .inl (if_neg hk)
  | access f => exact .inl rfl
  | stop => exact .inl rfl

/-! ## Steps -/

/-- What a step of a call that goes on does, and a start of a call, is all there is. -/
theorem step_cases [DecidablePred P.entry] (w : World κ σ τ) (a : Act τ) :
    w.step P a = w ∨
      (∃ i t, a = .spawn i t ∧ w.points i = none ∧ P.entry t ∧ w.step P a = w.setPoint i t) ∨
      ∃ i t, a = .run i ∧ w.points i = some t ∧ w.blocked P i t = false ∧
        w.step P a = w.exec i (P.instr t) := by
  cases a with
  | spawn i t =>
    simp only [World.step]
    split
    · rename_i hi
      split
      · rename_i hentry
        exact .inr (.inl ⟨i, t, rfl, hi, hentry, rfl⟩)
      · exact .inl rfl
    · exact .inl rfl
  | run i =>
    simp only [World.step]
    split
    · exact .inl rfl
    · rename_i t hi
      split
      · exact .inl rfl
      · rename_i hblocked
        exact .inr (.inr ⟨i, t, rfl, hi, Bool.eq_false_iff.mpr hblocked, rfl⟩)

/-- What is kept by requests and releases is kept by every step. -/
theorem locks_step [DecidablePred P.entry] {Q : Lock → Prop}
    (hrequest : ∀ l i m, Q l → Q (l.request i m)) (hrelease : ∀ l i, Q l → Q (l.release i))
    (h : ∀ k, Q (w.locks k)) (a : Act τ) (k : κ) : Q ((w.step P a).locks k) := by
  rcases step_cases (P := P) w a with hstay | ⟨i, t, -, -, -, hspawn⟩ | ⟨i, t, -, -, -, hexec⟩
  · rw [hstay]
    exact h k
  · rw [hspawn]
    exact h k
  · rw [hexec]
    rcases locks_exec w i (P.instr t) k with hsame | ⟨m, next, -, hreq⟩ | ⟨next, -, hrel⟩
    · rw [hsame]
      exact h k
    · rw [hreq]
      exact hrequest _ _ _ (h k)
    · rw [hrel]
      exact hrelease _ _ (h k)

theorem data_exec (w : World κ σ τ) (i : ℕ) (ins : Instr κ σ τ) :
    (w.exec i ins).data = ins.after w.data := by
  cases ins <;> rfl

/-- A call at its end stays there. -/
theorem exec_of_next_eq_none (h : ins.next w.data = none) : w.exec i ins = w := by
  cases ins with
  | stop => rfl
  | acquire | release | access => cases h

/-- A call at a point that is not the last one moves on to the next. -/
theorem points_exec_self (i : ℕ) (h : ins.next w.data = some next) :
    (w.exec i ins).points i = some next := by
  rw [points_exec, if_pos rfl, h, Option.some_or]

theorem held_exec (h : ins.next w.data = some next) : (w.exec i ins).held P i = P.holds next :=
  held_eq (points_exec_self i h)

/-! ## The guards of the account -/

/-- Every guard of the account is on its lock, held or waited for. -/
def Accounted (P : Program κ σ τ) (w : World κ σ τ) : Prop :=
  ∀ i k, (w.held P i).count k ≤ (w.locks k).total i

theorem accounted_new (s : σ) : Accounted P (World.new s : World κ σ τ) :=
  fun _ _ => Nat.zero_le _

theorem Accounted.exec (h : Accounted P w) (hc : Consistent P w) (hi : w.points i = some t)
    (hblocked : w.blocked P i t = false) : Accounted P (w.exec i (P.instr t)) := by
  intro j k
  have hbefore := h j k
  have hwell := P.wellLocked t
  by_cases hji : j = i
  · subst hji
    rw [held_eq hi] at hbefore
    cases hinstr : P.instr t with
    | acquire k' m next =>
      rw [hinstr] at hwell
      have hheld : (w.exec j (.acquire k' m next)).held P j = k' :: P.holds t :=
        (held_exec rfl).trans hwell
      rw [hheld, World.exec, locks_setPoint, locks_setLock]
      by_cases hk : k = k'
      · subst hk
        rw [if_pos rfl, Lock.total_request, if_pos rfl, List.count_cons_self]
        exact Nat.succ_le_succ hbefore
      · rw [if_neg hk, List.count_cons_of_ne (Ne.symm hk)]
        exact hbefore
    | release k' next =>
      rw [hinstr] at hwell
      have hwell : P.holds t = k' :: P.holds next := hwell
      have hheld : (w.exec j (.release k' next)).held P j = P.holds next := held_exec rfl
      have hnone : (w.locks k').queue.countP (fun e => e.1 == j) = 0 := by
        refine List.countP_eq_zero.mpr fun e he => ?_
        simpa using fun heq : e.1 = j => hc.not_waits hi hblocked k' ⟨e.2, heq ▸ he⟩
      rw [hheld, World.exec, locks_setPoint, locks_setLock]
      rw [hwell] at hbefore
      by_cases hk : k = k'
      · subst hk
        rw [if_pos rfl, Lock.total_release _ _ _ fun _ => hnone, if_pos rfl]
        rw [List.count_cons_self] at hbefore
        omega
      · rw [if_neg hk]
        rwa [List.count_cons_of_ne (Ne.symm hk)] at hbefore
    | access f =>
      rw [hinstr] at hwell
      have hheld : (w.exec j (.access f)).held P j = P.holds t :=
        (held_exec rfl).trans (hwell w.data)
      rw [hheld]
      exact hbefore
    | stop =>
      rw [World.exec, held_eq hi]
      exact hbefore
  · have hheld : (w.exec i (P.instr t)).held P j = w.held P j := by
      rw [held, points_exec, if_neg hji, held]
    rw [hheld]
    rcases locks_exec w i (P.instr t) k with hsame | ⟨m, next, -, hreq⟩ | ⟨next, -, hrel⟩
    · rw [hsame]
      exact hbefore
    · rw [hreq, Lock.total_request, if_neg hji]
      exact hbefore
    · rw [hrel, Lock.total_release _ _ _ fun heq => absurd heq hji, if_neg hji]
      exact hbefore

theorem Accounted.step [DecidablePred P.entry] (h : Accounted P w) (hc : Consistent P w)
    (hentry : ∀ t, P.entry t → P.holds t = []) (a : Act τ) : Accounted P (w.step P a) := by
  rcases step_cases (P := P) w a with hstay | ⟨i, t, -, hi, ht, hspawn⟩ |
    ⟨i, t, -, hi, hblocked, hexec⟩
  · rw [hstay]
    exact h
  · rw [hspawn]
    intro j k
    by_cases hji : j = i
    · subst hji
      rw [held_eq (points_setPoint w j j t ▸ if_pos rfl), hentry t ht]
      exact Nat.zero_le _
    · rw [held, points_setPoint, if_neg hji]
      exact h j k
  · rw [hexec]
    exact h.exec hc hi hblocked

/-- A call that is not blocked holds the guards of its point. -/
theorem Accounted.holds (h : Accounted P w) (hc : Consistent P w) (hi : w.points i = some t)
    (hblocked : w.blocked P i t = false) {k : κ} (hk : k ∈ P.holds t) : w.Holds i k := by
  have hcount := h i k
  rw [held_eq hi, Lock.total] at hcount
  have hpos := List.count_pos_iff.mpr hk
  have hnone : (w.locks k).queue.countP (fun e => e.1 == i) = 0 := by
    refine List.countP_eq_zero.mpr fun e he => ?_
    simpa using fun heq : e.1 = i => hc.not_waits hi hblocked k ⟨e.2, heq ▸ he⟩
  have hheld : 0 < (w.locks k).holders.countP fun e => e.1 == i := by omega
  obtain ⟨⟨j, m⟩, hmem, hj⟩ := List.countP_pos_iff.mp hheld
  rw [beq_iff_eq] at hj
  dsimp only at hj
  exact ⟨m, hj ▸ hmem⟩

/-- The calls that are on the lock for writing are at points of a kind. -/
def WritesAt (k : κ) (writes : τ → Prop) (w : World κ σ τ) : Prop :=
  ∀ e ∈ (w.locks k).holders ++ (w.locks k).queue, e.2 = .write →
    ∃ t, w.points e.1 = some t ∧ writes t

theorem WritesAt.step [DecidablePred P.entry] {k : κ} {writes : τ → Prop}
    (h : WritesAt k writes w) (hc : Consistent P w) {a : Act τ}
    (hask : ∀ i t next, a = .run i → w.points i = some t → w.blocked P i t = false →
      P.instr t = .acquire k .write next → writes next)
    (hkeep : ∀ t s next, writes t → (P.instr t).next s = some next → k ∈ P.holds next →
      writes next) : WritesAt k writes (w.step P a) := by
  have hc' := hc.step a
  rcases step_cases (P := P) w a with hstay | ⟨i, t, -, hi, -, hspawn⟩ |
    ⟨i, t, ha, hi, hblocked, hexec⟩
  · rw [hstay]
    exact h
  · rw [hspawn]
    intro e he hwrite
    obtain ⟨t', ht', hwrites⟩ := h e he hwrite
    refine ⟨t', ?_, hwrites⟩
    rw [points_setPoint, if_neg]
    · exact ht'
    · rintro heq
      rw [heq, hi] at ht'
      cases ht'
  · rw [hexec] at hc' ⊢
    intro e he hwrite
    by_cases hei : e.1 = i
    · -- the call itself: what it holds now is in the account of its new point
      have hon : 0 < ((w.exec i (P.instr t)).locks k).total i := by
        rw [Lock.total, ← List.countP_append]
        exact List.countP_pos_iff.mpr ⟨e, he, by simpa using hei⟩
      have hmem : k ∈ (w.exec i (P.instr t)).held P i :=
        List.count_pos_iff.mp (Nat.lt_of_lt_of_le hon (hc'.total i k))
      cases hnext : (P.instr t).next w.data with
      | none =>
        -- the call is at its end, and holds nothing
        have hstops : (P.instr t).stops = true := by
          by_contra hgoes
          obtain ⟨next, hnext'⟩ := Instr.exists_next w.data (Bool.eq_false_iff.mpr hgoes)
          rw [hnext] at hnext'
          cases hnext'
        rw [exec_of_next_eq_none hnext, held_eq hi, (P.wellLocked t).stops hstops] at hmem
        cases hmem
      | some next =>
        have hpoint := points_exec_self i hnext
        rw [held_exec hnext] at hmem
        refine ⟨next, by rw [hei]; exact hpoint, ?_⟩
        have hold (hold : e ∈ (w.locks k).holders ++ (w.locks k).queue) : writes next := by
          obtain ⟨t', ht', hwrites⟩ := h e hold hwrite
          rw [hei, hi] at ht'
          cases ht'
          exact hkeep t _ next hwrites hnext hmem
        rcases locks_exec w i (P.instr t) k with hsame | ⟨m, next', hins, hreq⟩ |
          ⟨next', -, hrel⟩
        · rw [hsame] at he
          exact hold he
        · rw [hreq] at he
          rcases Lock.mem_request he with he | rfl
          · exact hold he
          · obtain rfl : m = .write := hwrite
            rw [hins] at hnext
            cases hnext
            exact hask i t _ ha hi hblocked hins
        · rw [hrel] at he
          exact hold (Lock.mem_release he)
    · have hold : e ∈ (w.locks k).holders ++ (w.locks k).queue := by
        rcases locks_exec w i (P.instr t) k with hsame | ⟨m, next', -, hreq⟩ | ⟨next', -, hrel⟩
        · rwa [hsame] at he
        · rw [hreq] at he
          rcases Lock.mem_request he with he | rfl
          · exact he
          · exact absurd rfl hei
        · rw [hrel] at he
          exact Lock.mem_release he
      rw [points_exec, if_neg hei]
      exact h e hold hwrite

/-! ## Progress -/

/-- The call can go on. -/
def CanRun (P : Program κ σ τ) (w : World κ σ τ) (i : ℕ) : Prop :=
  ∃ t, w.points i = some t ∧ w.blocked P i t = false ∧ (P.instr t).stops = false

/-- Where no set of calls is deadlocked, some call can go on while one is not at its end. -/
theorem exists_canRun (hc : Consistent P w) (hfair : ∀ k, (w.locks k).Fair)
    (hfree : ∀ d : Set ℕ, d.Nonempty → ¬ w.Deadlocked d) (hi : w.points i = some t)
    (hgoes : (P.instr t).stops = false) : ∃ j, CanRun P w j := by
  by_contra hnone
  refine hfree {j | ∃ t, w.points j = some t ∧ (P.instr t).stops = false} ⟨i, t, hi, hgoes⟩ ?_
  rintro j ⟨t', hj, hgoes'⟩
  have hblocked : w.blocked P j t' = true := by
    by_contra hfree'
    exact hnone ⟨j, t', hj, Bool.eq_false_iff.mpr hfree', hgoes'⟩
  obtain ⟨k, rest, -, hwaits⟩ := blocked_iff.mp hblocked
  refine ⟨k, hwaits, ?_⟩
  -- whoever waits, waits behind a holder, and a holder is not at its end
  obtain ⟨m, hm⟩ := hwaits
  obtain ⟨e, he⟩ := List.exists_mem_of_ne_nil _ ((hfair k).served (List.ne_nil_of_mem hm))
  have hholds : w.Holds e.1 k := ⟨e.2, he⟩
  obtain ⟨t'', ht'', hk⟩ := hc.holds hholds
  refine ⟨e.1, ⟨t'', ht'', ?_⟩, hholds⟩
  by_contra hstops
  rw [(P.wellLocked t'').stops (by simpa using hstops)] at hk
  cases hk

/-! ## Ends -/

/-- The instruction at a point leads to another one. -/
def Leads (P : Program κ σ τ) (t' t : τ) : Prop := ∃ s, (P.instr t).next s = some t'

/-- The calls are run in an order, up to its `n`-th. -/
def ordered (f : ℕ → ℕ) (n : ℕ) : List (Act τ) := (List.range n).map fun j => .run (f j)

/-- Only calls below the bound have started. -/
def Below (n : ℕ) (w : World κ σ τ) : Prop := ∀ i, n ≤ i → w.points i = none

theorem Below.exec (h : w.Below n) (hi : w.points i = some t) (ins : Instr κ σ τ) :
    (w.exec i ins).Below n := by
  intro j hj
  have hji : j ≠ i := by
    rintro rfl
    rw [h j hj] at hi
    cases hi
  rw [points_exec, if_neg hji]
  exact h j hj

theorem exists_below_step [DecidablePred P.entry] (h : w.Below n) (a : Act τ) :
    ∃ n, (w.step P a).Below n := by
  rcases step_cases (P := P) w a with hstay | ⟨i, t, -, -, -, hspawn⟩ | ⟨i, t, -, hi, -, hexec⟩
  · rw [hstay]
    exact ⟨n, h⟩
  · rw [hspawn]
    refine ⟨max n (i + 1), fun j hj => ?_⟩
    rw [points_setPoint, if_neg (by omega)]
    exact h j (by omega)
  · rw [hexec]
    exact ⟨n, h.exec hi _⟩

/-- The calls that a list of actions has started are below some bound. -/
theorem exists_below_run [DecidablePred P.entry] (h : w.Below n) (acts : List (Act τ)) :
    ∃ n, (run (World.step P) w acts).Below n :=
  invariant_run (World.step P) (I := fun w => ∃ n, w.Below n)
    (fun _ a ⟨_, hn⟩ => exists_below_step hn a) acts ⟨n, h⟩

/-- The step from a point to the next, with the points of calls that have not started. -/
def LeadsOpt (P : Program κ σ τ) (o' o : Option τ) : Prop :=
  ∃ t' t, o' = some t' ∧ o = some t ∧ Leads P t' t

omit [DecidableEq κ] in
theorem wellFounded_leadsOpt (hP : WellFounded (Leads P)) : WellFounded (LeadsOpt P) := by
  constructor
  intro o
  cases o with
  | none => exact Acc.intro _ fun _ ⟨_, _, _, h, _⟩ => by cases h
  | some t =>
    induction t using hP.induction with
    | _ t ih =>
      refine Acc.intro _ ?_
      rintro _ ⟨t', t, rfl, h, hleads⟩
      cases h
      exact ih t' hleads

/-- A call that goes on changes its own point only, to one that its point leads to. -/
theorem CanRun.step [DecidablePred P.entry] (h : CanRun P w i) :
    ∃ t t', w.points i = some t ∧ Leads P t' t ∧
      w.step P (.run i) = w.exec i (P.instr t) ∧ (w.step P (.run i)).points i = some t' := by
  obtain ⟨t, hi, hblocked, hgoes⟩ := h
  obtain ⟨t', hnext⟩ := Instr.exists_next w.data hgoes
  have hstep : w.step P (.run i) = w.exec i (P.instr t) := by
    simp only [World.step, hi, hblocked]
    rfl
  exact ⟨t, t', hi, ⟨w.data, hnext⟩, hstep, hstep ▸ points_exec_self i hnext⟩

theorem Below.run_step [DecidablePred P.entry] (h : w.Below n) (i : ℕ) :
    (w.step P (.run i)).Below n := by
  rcases step_cases (P := P) w (.run i) with hstay | ⟨j, t, heq, -⟩ | ⟨j, t, -, hj, -, hexec⟩
  · rw [hstay]
    exact h
  · cases heq
  · rw [hexec]
    exact h.exec hj _

theorem run_ordered_succ [DecidablePred P.entry] (f : ℕ → ℕ) (k : ℕ) :
    run (World.step P) w (ordered f (k + 1)) =
      (run (World.step P) w (ordered f k)).step P (.run (f k)) := by
  rw [ordered, List.range_succ, List.map_append, run_append]
  rfl

/-- Where the points are well-founded, running the calls that have started in whatever order comes
to a call that cannot go on. -/
theorem exists_not_canRun [DecidablePred P.entry] (hP : WellFounded (Leads P))
    (h : w.Below n) (f : ℕ → ℕ) :
    ∃ k, ¬ CanRun P (run (World.step P) w (ordered f k)) (f k) := by
  let at_ (k : ℕ) : World κ σ τ := run (World.step P) w (ordered f k)
  have hbelow : ∀ k, (at_ k).Below n := by
    intro k
    induction k with
    | zero => exact h
    | succ k ih =>
      rw [show at_ (k + 1) = _ from run_ordered_succ f k]
      exact ih.run_step (f k)
  have : IsWellFounded (Fin n → Option τ) (Pi.Lex (· < ·) fun {_ : Fin n} => LeadsOpt P) :=
    ⟨Pi.Lex.wellFounded _ fun _ => wellFounded_leadsOpt hP⟩
  obtain ⟨k, hk⟩ := WellFounded.not_rel_apply_succ (r := Pi.Lex (· < ·) fun {_ : Fin n} => LeadsOpt P)
    fun k i => (at_ k).points i
  refine ⟨k, fun hcan => hk ?_⟩
  obtain ⟨t, t', ht, hleads, hstep, ht'⟩ := hcan.step
  have hlt : f k < n := by
    by_contra hge
    rw [hbelow k (f k) (Nat.le_of_not_lt hge)] at ht
    cases ht
  have hnext : at_ (k + 1) = (at_ k).step P (.run (f k)) := run_ordered_succ f k
  refine ⟨⟨f k, hlt⟩, fun j hj => ?_, t', t, ?_, ht, hleads⟩
  · dsimp only
    rw [hnext, hstep, points_exec, if_neg]
    exact fun heq => absurd (Fin.ext heq : j = ⟨f k, hlt⟩) (ne_of_lt hj)
  · dsimp only
    rw [hnext]
    exact ht'

end World

end Backbone.RwLock
