import Backbone.Orm.NestedWrites

/-!
# Request scopes on a pooled connection

A request scope takes a connection from the pool, sets session variables on it, runs the request's
future, and clears the variables again: in line when the future is done, by a spawned task when the
scope itself is dropped. The connection is back in the pool when nothing refers to it any more: not
the scope, no clone, no rollback task of a dropped write unit, no reset.

A clone that outlives the request runs statements; it opens no unit, for the task-local that a unit
begins on stays with the request's own task.

Reference: `backbone-orm/src/company_scope.rs`, `org_scope.rs`, `audit_context.rs`.
-/

namespace Backbone.Orm

open Pg

variable {α : Type*}

/-! ## Scopes -/

/-- What a request scope sets, in order, and what its guard clears. -/
structure RequestScope where
  binds : List (String × String)
  vars : List String
  covers : ∀ bind ∈ binds, bind.1 ∈ vars

/-- `with_request_scope`. -/
def withRequestScope (company : String) : RequestScope where
  binds := [("app.company_id", company)]
  vars := ["app.company_id"]
  covers := by simp

/-- `ORG_FENCE_VARS`. -/
def orgFenceVars : List String := ["app.scope_unit_ids", "app.company_id", "app.acting_unit_id"]

/-- `AUDIT_CONTEXT_VARS`. -/
def auditContextVars : List String :=
  ["app.actor", "app.correlation_id", "app.client_ip", "app.user_agent", "app.http_method",
    "app.resource_path"]

structure OrgScope where
  scopeUnitIds : List String
  actingUnitId : String
  legacyCompanyId : Option String

structure RequestAuditContext where
  actor : String
  correlationId : String
  clientIp : String
  userAgent : String
  httpMethod : String
  resourcePath : String

/-- `RequestAuditContext::pairs`. -/
def RequestAuditContext.pairs (audit : RequestAuditContext) : List (String × String) :=
  [("app.actor", audit.actor), ("app.correlation_id", audit.correlationId),
    ("app.client_ip", audit.clientIp), ("app.user_agent", audit.userAgent),
    ("app.http_method", audit.httpMethod), ("app.resource_path", audit.resourcePath)]

/-- `open_org_request_scope`. -/
def openOrgRequestScope (scope : OrgScope) (audit : Option RequestAuditContext) :
    RequestScope where
  binds :=
    [("app.scope_unit_ids", String.intercalate "," scope.scopeUnitIds),
      ("app.company_id", scope.legacyCompanyId.getD ""),
      ("app.acting_unit_id", scope.actingUnitId)] ++
      (audit.map (·.pairs)).getD []
  vars := orgFenceVars ++ auditContextVars
  covers := by
    cases audit <;> simp [orgFenceVars, auditContextVars, RequestAuditContext.pairs]

/-! ## A request -/

/-- Where the `ScopeResetGuard` stands. -/
inductive Guard where
  | armed
  /-- Dropped: its task waits for the connection. -/
  | spawned
  /-- The task could not clear every variable; it has still to detach the connection. -/
  | detaching
  | done
  deriving DecidableEq

/-- A request connection. -/
structure Request (α : Type*) where
  conn : Connection α
  /-- What is left to set. -/
  binds : List (String × String)
  vars : List String
  guard : Guard
  /-- The scope's own reference, `holder`. -/
  holder : Bool
  clones : ℕ
  detached : Bool

/-- A scope, the connection just acquired and the guard armed. -/
def Request.start (scope : RequestScope) (durable : List α) (vars : String → String) : Request α :=
  ⟨.idle durable vars, scope.binds, scope.vars, .armed, true, 0, false⟩

/-- What happens to a request connection. -/
inductive ScopeAct (α : Type*) where
  /-- The next variable is set; a failure ends the scope. -/
  | bind (wrong : Bool)
  /-- A write unit or a statement, of the request or of a clone. -/
  | conn (act : TxAct α)
  | clone
  | dropClone
  /-- The request's future is done; `wrong` says which variables the server refuses to set. -/
  | ends (wrong : String → Bool)
  /-- As `ends`, but the scope is dropped when some of the variables are cleared. -/
  | endCut (cleared : ℕ) (wrong : String → Bool)
  /-- The scope is dropped, by a panic or with its caller. -/
  | drop (runtime : Bool)
  /-- The scope's own reference is dropped, last of all it holds. -/
  | release
  /-- The reset task takes the connection. -/
  | reset (wrong : String → Bool)
  /-- The reset task, having failed, comes to `detach_if_last`. -/
  | detach

/-- The loop of `reset_or_detach`: whether it failed. -/
def resetVars (wrong : String → Bool) : List String → Session α → Bool × Session α
  | [], s => (false, s)
  | var :: vars, s =>
    let (ok, s) := s.setConfig var "" (wrong var)
    let (failed, s) := resetVars wrong vars s
    (!ok || failed, s)

namespace Request

/-- The request's future runs. -/
def running (r : Request α) : Prop := r.guard = .armed ∧ r.binds = []

instance (r : Request α) : Decidable r.running := by unfold running; infer_instance

/-- Who can do what on the connection. -/
def allows (r : Request α) : TxAct α → Prop
  | .begin | .finish .. | .drop _ | .cut .. => r.running
  | .stmt .. => r.running ∨ 0 < r.clones
  | .task _ | .lose => True

instance (r : Request α) (act : TxAct α) : Decidable (r.allows act) := by
  cases act <;> unfold allows <;> infer_instance

/-- No reference to the connection is left but the one the reset holds. -/
def last (r : Request α) : Prop := r.holder = false ∧ r.clones = 0 ∧ r.conn.tasks = []

instance (r : Request α) : Decidable r.last := by unfold last; infer_instance

/-- `detach_if_last`. -/
def detachIfLast (r : Request α) : Request α := if r.last then { r with detached := true } else r

def withSession (r : Request α) (session : Session α) : Request α :=
  { r with conn.driver.session := session }

def step (r : Request α) : ScopeAct α → Request α
  | .bind wrong =>
    match r.guard, r.binds with
    | .armed, (var, value) :: binds =>
      match r.conn.driver.session.setConfig var value wrong with
      | (true, session) => { r.withSession session with binds }
      | (false, session) => { r.withSession session with guard := .spawned }
    | _, _ => r
  | .conn act => if r.allows act then { r with conn := r.conn.step act } else r
  | .clone => if r.running ∨ 0 < r.clones then { r with clones := r.clones + 1 } else r
  | .dropClone => { r with clones := r.clones - 1 }
  | .ends wrong =>
    if r.running ∧ r.conn.units.isEmpty then
      let (failed, session) := resetVars wrong r.vars r.conn.driver.session
      let r := { r.withSession session with guard := .done }
      if failed then r.detachIfLast else r
    else r
  -- The guard has given its reference and its variables away before it awaits.
  | .endCut cleared wrong =>
    if r.running ∧ r.conn.units.isEmpty then
      let (_, session) := resetVars wrong (r.vars.take cleared) r.conn.driver.session
      { r.withSession session with guard := .done }
    else r
  | .drop runtime =>
    if r.guard = .armed ∧ r.conn.units.isEmpty then
      if runtime then { r with guard := .spawned } else { r.detachIfLast with guard := .done }
    else r
  | .release => if r.guard = .armed then r else { r with holder := false }
  | .reset wrong =>
    if r.guard = .spawned then
      let (failed, session) := resetVars wrong r.vars r.conn.driver.session
      { r.withSession session with guard := if failed then .detaching else .done }
    else r
  | .detach => if r.guard = .detaching then { r.detachIfLast with guard := .done } else r

/-- The connection is back in the pool, or gone. -/
def returned (r : Request α) : Prop := r.guard = .done ∧ r.last

/-- The pool does not use the connection again. -/
def closed (r : Request α) : Prop :=
  r.detached = true ∨ r.conn.driver.closing = true ∨ r.conn.driver.session.lost = true

instance (r : Request α) : Decidable r.returned := by unfold returned; infer_instance

instance (r : Request α) : Decidable r.closed := by unfold closed; infer_instance

/-- Nothing of the scope is left on the connection. -/
def clean (r : Request α) : Prop :=
  r.conn.driver.session.outside ∧ ∀ var ∈ r.vars, r.conn.driver.session.vars var = ""

end Request

/-! ## What a reset does -/

theorem resetVars_lost (wrong : String → Bool) (vars : List String) (s : Session α) :
    (resetVars wrong vars s).2.lost = s.lost := by
  induction vars generalizing s with
  | nil => rfl
  | cons var vars ih =>
    simp only [resetVars]
    rw [ih, Session.setConfig_lost_eq]

variable {wrong : String → Bool} (fuel : ℕ) (base : ℕ) (d : Driver α)
  {vars : List String} {s : Session α}

/-- Outside any transaction, and with nothing refused, every variable is cleared. -/
theorem resetVars_outside (hlost : s.lost = false)
    (hs : s.outside) (hright : ∀ var ∈ vars, wrong var = false) :
    ∃ s', resetVars wrong vars s = (false, s') ∧ s'.outside ∧
      (∀ var, var ∈ vars ∨ s.vars var = "" → s'.vars var = "") := by
  induction vars generalizing s with
  | nil => exact ⟨s, rfl, hs, fun var h => h.resolve_left nofun⟩
  | cons var vars ih =>
    have hset := Session.setConfig_outside var "" hlost hs
    obtain ⟨s', hreset, hs', hcleared⟩ :=
      ih (s := { s with vars := fun v => if v = var then "" else s.vars v }) hlost hs
        fun v hv => hright v (List.mem_cons_of_mem _ hv)
    refine ⟨s', ?_, hs', fun v hv => hcleared v ?_⟩
    · simp only [resetVars, hright var List.mem_cons_self, hset, hreset]
      rfl
    · rcases hv with hv | hv
      · rcases List.mem_cons.mp hv with rfl | hv
        · exact .inr (if_pos rfl)
        · exact .inl hv
      · refine .inr ?_
        change (if v = var then "" else s.vars v) = ""
        rw [hv, ite_self]

/-- A reset that is refused anything has failed. -/
theorem resetVars_refused (h : ∃ var ∈ vars, s.aborted = true ∨ wrong var = true) :
    (resetVars wrong vars s).1 = true := by
  induction vars generalizing s with
  | nil => simp at h
  | cons var vars ih =>
    simp only [resetVars]
    by_cases hfirst : s.aborted = true ∨ wrong var = true
    · have hset : (s.setConfig var "" (wrong var)).1 = false := by
        unfold Session.setConfig
        split
        · rfl
        · rename_i hgo
          rcases hfirst with hab | hwrong
          · exact absurd (.inr hab) hgo
          · rw [if_pos hwrong]
            rfl
      simp [hset]
    · obtain ⟨var', hmem, hrefused⟩ := h
      have hwrong : wrong var' = true := by
        rcases hrefused with hab | hwrong
        · exact absurd (.inl hab) hfirst
        · exact hwrong
      have hne : var' ≠ var := by
        rintro rfl
        exact hfirst (.inr hwrong)
      rw [ih ⟨var', (List.mem_cons.mp hmem).resolve_left hne, .inr hwrong⟩, Bool.or_true]

/-! ## What is left to happen after the reset -/

theorem rollbackLoop_lost : (rollbackLoop fuel base d).session.lost = d.session.lost := by
  induction fuel generalizing d with
  | zero => rfl
  | succ fuel ih =>
    rw [rollbackLoop]
    split
    · split
      · rename_i d' hrollback
        rw [ih, ← Driver.rollback_lost_eq d, hrollback]
      · rename_i d' hrollback
        change d'.session.lost = _
        rw [← Driver.rollback_lost_eq d, hrollback]
    · rfl

theorem rollbackLoop_closing (h : d.closing = true) :
    (rollbackLoop fuel base d).closing = true := by
  induction fuel generalizing d with
  | zero => exact h
  | succ fuel ih =>
    rw [rollbackLoop]
    split
    · split
      · rename_i d' hrollback
        refine ih d' ?_
        rw [← h, ← Driver.rollback_closing d, hrollback]
      · rfl
    · exact h

/-- Outside any transaction a rollback finds nothing to undo. -/
theorem rollbackLoop_outside (h : d.session.outside) :
    (rollbackLoop fuel base d).session = d.session := by
  induction fuel generalizing d with
  | zero => rfl
  | succ fuel ih =>
    have hsession := Driver.rollback_outside h
    rw [rollbackLoop]
    split
    · split
      · rename_i d' hrollback
        rw [hrollback] at hsession
        rw [ih d' (hsession ▸ h), hsession]
      · rename_i d' hrollback
        rw [hrollback] at hsession
        exact hsession
    · rfl

variable {c : Connection α} {act : TxAct α}

/-- What may still happen on a connection whose units are over: it stays closed, or clean. -/
theorem Connection.step_after
    (hact : (∃ a wrong, act = .stmt a wrong) ∨ (∃ i, act = .task i) ∨ act = .lose) :
    (c.driver.closing = true → (c.step act).driver.closing = true) ∧
      (c.driver.session.lost = true → (c.step act).driver.session.lost = true) ∧
      (c.driver.session.outside → (c.step act).driver.session.lost = true ∨
        (c.step act).driver.session.outside ∧
          (c.step act).driver.session.vars = c.driver.session.vars) ∧
      ((c.step act).tasks = [] ∨ c.tasks ≠ []) := by
  rcases hact with ⟨a, wrong, rfl⟩ | ⟨i, rfl⟩ | rfl
  · refine ⟨id, fun hlost => ?_, fun h => .inr (Session.exec_outside a wrong h), ?_⟩
    · simpa [Connection.step] using hlost
    · exact (em (c.tasks = []))
  · simp only [Connection.step]
    split
    · exact ⟨id, id, fun h => .inr ⟨h, rfl⟩, em _⟩
    · rename_i base hget
      refine ⟨rollbackLoop_closing _ _ _, fun hlost => ?_, fun h => .inr ?_, .inr ?_⟩
      · exact (rollbackLoop_lost _ _ _).trans hlost
      · rw [rollbackTo, rollbackLoop_outside _ _ _ h]
        exact ⟨h, rfl⟩
      · rintro hnil
        simp [hnil] at hget
  · exact ⟨id, fun _ => rfl, fun _ => .inl rfl, em _⟩

/-! ## Runs -/

/-- The variables are cleared outside any transaction, and none is refused; or the connection is
lost. -/
def Request.clears (r : Request α) (wrong : String → Bool) : Prop :=
  r.conn.driver.session.lost = true ∨
    r.conn.driver.session.outside ∧ ∀ var ∈ r.vars, wrong var = false

/-- Each reset clears the variables, or is a refused one of the reset task that has the last
reference; no reset in line is dropped, and the scope is not dropped without a runtime. -/
def Resets (r : Request α) : ScopeAct α → Prop
  | .ends wrong => r.running ∧ r.conn.units.isEmpty → r.clears wrong
  | .reset wrong => r.guard = .spawned → r.clears wrong ∨
      r.last ∧ ∃ var ∈ r.vars, r.conn.driver.session.aborted = true ∨ wrong var = true
  | .endCut .. => False
  | .drop runtime => runtime = true
  | _ => True

structure ScopeInv (r : Request α) : Prop where
  done : r.guard = .done → r.closed ∨ r.clean
  detaching : r.guard = .detaching → r.conn.driver.session.lost = true ∨ r.last

variable {r : Request α}

theorem ScopeInv.of_pending (hdone : r.guard ≠ .done) (hdetaching : r.guard ≠ .detaching) :
    ScopeInv r :=
  ⟨fun h => absurd h hdone, fun h => absurd h hdetaching⟩

/-- Cleared variables stay so for whoever uses the connection next. -/
theorem Request.clears.settles (h : r.clears wrong) :
    (resetVars wrong r.vars r.conn.driver.session).2.lost = true ∨
      ∃ session, resetVars wrong r.vars r.conn.driver.session = (false, session) ∧
        session.outside ∧ ∀ var ∈ r.vars, session.vars var = "" := by
  rcases h with hlost | ⟨houtside, hright⟩
  · exact .inl ((resetVars_lost wrong r.vars _).trans hlost)
  · cases hlost : r.conn.driver.session.lost with
    | true => exact .inl ((resetVars_lost wrong r.vars _).trans hlost)
    | false =>
      obtain ⟨session, hreset, hsession, hcleared⟩ := resetVars_outside hlost houtside hright
      exact .inr ⟨session, hreset, hsession, fun var hvar => hcleared var (.inl hvar)⟩

/-- A connection whose scope is over is used by tasks and clones only. -/
theorem Request.allows.after (h : r.allows act) (hguard : r.guard ≠ .armed) :
    ((∃ a wrong, act = .stmt a wrong) ∨ (∃ i, act = .task i) ∨ act = .lose) ∧
      (r.last → ∀ a wrong, act ≠ .stmt a wrong) := by
  have hrunning : ¬ r.running := fun hrun => hguard hrun.1
  cases act with
  | begin | finish | drop | cut => exact absurd h hrunning
  | stmt a wrong =>
    refine ⟨.inl ⟨a, wrong, rfl⟩, fun hlast => ?_⟩
    have hclones := h.resolve_left hrunning
    rw [hlast.2.1] at hclones
    exact absurd hclones (Nat.lt_irrefl 0)
  | task i => exact ⟨.inr (.inl ⟨i, rfl⟩), fun _ _ _ => nofun⟩
  | lose => exact ⟨.inr (.inr rfl), fun _ _ _ => nofun⟩

theorem ScopeInv.conn (h : ScopeInv r) (act : TxAct α) (hact : r.allows act) :
    ScopeInv { r with conn := r.conn.step act } where
  done := by
    intro hguard
    have hguard : r.guard = .done := hguard
    obtain ⟨hclosing, hlost, houtside, -⟩ :=
      r.conn.step_after (hact.after (by simp [hguard])).1
    rcases h.done hguard with hclosed | ⟨hsession, hvars⟩
    · exact .inl (hclosed.imp_right (Or.imp hclosing hlost))
    · rcases houtside hsession with hgone | ⟨hsession', hsame⟩
      · exact .inl (.inr (.inr hgone))
      · exact .inr ⟨hsession', fun var hvar => (congrFun hsame var).trans (hvars var hvar)⟩
  detaching := by
    intro hguard
    have hguard : r.guard = .detaching := hguard
    obtain ⟨-, hlost, -, htasks⟩ := r.conn.step_after (hact.after (by simp [hguard])).1
    rcases h.detaching hguard with hgone | hlast
    · exact .inl (hlost hgone)
    · exact .inr ⟨hlast.1, hlast.2.1, htasks.resolve_right (not_not_intro hlast.2.2)⟩

theorem scopeInv_step (r : Request α) (act : ScopeAct α) (h : ScopeInv r) (hact : Resets r act) :
    ScopeInv (r.step act) := by
  cases act with
  | bind wrong =>
    simp only [Request.step]
    split
    · rename_i hguard _
      split
      · exact .of_pending (by simp [Request.withSession, hguard])
          (by simp [Request.withSession, hguard])
      · exact .of_pending nofun nofun
    · exact h
  | conn act =>
    simp only [Request.step]
    split
    · rename_i hallows
      exact h.conn act hallows
    · exact h
  | clone =>
    simp only [Request.step]
    split
    · rename_i hclone
      refine ⟨h.done, fun hguard => ?_⟩
      have hguard : r.guard = .detaching := hguard
      have hclones : 0 < r.clones := hclone.resolve_left fun hrun => by simp [hrun.1] at hguard
      refine (h.detaching hguard).imp_right fun hlast => ?_
      rw [hlast.2.1] at hclones
      exact absurd hclones (Nat.lt_irrefl 0)
    · exact h
  | dropClone =>
    refine ⟨h.done, fun hguard => (h.detaching hguard).imp_right fun hlast => ?_⟩
    exact ⟨hlast.1, by simp [Request.step, hlast.2.1], hlast.2.2⟩
  | ends wrong =>
    simp only [Request.step]
    split
    · rename_i hends
      refine ⟨fun _ => ?_, fun hguard => ?_⟩
      · rcases (hact hends).settles with hlost | ⟨session, hreset, hsession, hcleared⟩
        · refine .inl (.inr (.inr ?_))
          split
          · unfold Request.detachIfLast
            split <;> exact hlost
          · exact hlost
        · rw [hreset]
          exact .inr ⟨hsession, hcleared⟩
      · unfold Request.detachIfLast at hguard
        split at hguard
        · split at hguard <;> cases hguard
        · cases hguard
    · exact h
  | endCut cleared wrong => exact absurd hact not_false
  | drop runtime =>
    simp only [Request.step]
    split
    · obtain rfl : runtime = true := hact
      exact .of_pending nofun nofun
    · exact h
  | release =>
    simp only [Request.step]
    split
    · exact h
    · exact ⟨h.done, fun hguard => (h.detaching hguard).imp_right fun hlast => ⟨rfl, hlast.2⟩⟩
  | reset wrong =>
    simp only [Request.step]
    split
    · rename_i hspawned
      rcases hact hspawned with hclears | ⟨hlast, hrefused⟩
      · rcases hclears.settles with hlost | ⟨session, hreset, hsession, hcleared⟩
        · exact ⟨fun _ => .inl (.inr (.inr hlost)), fun _ => .inl hlost⟩
        · rw [hreset]
          exact ⟨fun _ => .inr ⟨hsession, hcleared⟩, nofun⟩
      · rw [resetVars_refused hrefused]
        exact ⟨nofun, fun _ => .inr hlast⟩
    · exact h
  | detach =>
    simp only [Request.step]
    split
    · rename_i hguard
      refine ⟨fun _ => .inl ?_, nofun⟩
      unfold Request.detachIfLast
      split
      · exact .inl rfl
      · rename_i hshared
        exact .inr (.inr ((h.detaching hguard).resolve_right hshared))
    · exact h

theorem Request.step_vars (r : Request α) (act : ScopeAct α) : (r.step act).vars = r.vars := by
  have hdetach : ∀ r : Request α, r.detachIfLast.vars = r.vars := by
    intro r
    unfold Request.detachIfLast
    split <;> rfl
  cases act with
  | bind | conn | clone | endCut | release | reset =>
    simp only [Request.step, Request.withSession]
    repeat' split
    all_goals rfl
  | dropClone => rfl
  | ends wrong =>
    simp only [Request.step, Request.withSession]
    split
    · split
      · exact hdetach _
      · rfl
    · rfl
  | drop runtime =>
    simp only [Request.step]
    split
    · split
      · rfl
      · exact hdetach r
    · rfl
  | detach =>
    simp only [Request.step]
    split
    · exact hdetach r
    · rfl

/-- No scope survives into the pool: in every run in which each reset clears the variables, a
connection that is back in the pool is closed, or outside any transaction with every variable of the
scope empty. -/
theorem no_scope_survives (scope : RequestScope) (durable : List α) (vars : String → String)
    (acts : List (ScopeAct α))
    (hacts : Machine.Along Request.step Resets (Request.start scope durable vars) acts) :
    let r := Machine.run Request.step (Request.start scope durable vars) acts
    r.returned → r.closed ∨
      r.conn.driver.session.outside ∧
        ∀ var ∈ scope.vars, r.conn.driver.session.vars var = "" := by
  intro r hreturned
  have hinv : ScopeInv r :=
    Machine.invariant_along Request.step scopeInv_step (.of_pending nofun nofun) hacts
  have hvars : r.vars = scope.vars :=
    Machine.rel_run Request.step (R := fun r r' => r'.vars = r.vars) (fun _ => rfl)
      (fun h h' => h'.trans h) Request.step_vars _ acts
  have hsettled := hinv.done hreturned.1
  unfold Request.clean at hsettled
  rwa [hvars] at hsettled

/-- A request whose future is dropped inside a write unit, the rollback task first. -/
theorem no_scope_survives_disconnect :
    let r := Machine.run Request.step
      (Request.start (withRequestScope "acme") ([] : List ℕ) fun _ => "")
      [.bind false, .conn .begin, .conn (.stmt 0 false), .conn (.drop true), .drop true, .release,
        .conn (.task 0), .reset fun _ => false]
    r.closed ∨ r.conn.driver.session.outside ∧
      ∀ var ∈ (withRequestScope "acme").vars, r.conn.driver.session.vars var = "" :=
  no_scope_survives (withRequestScope "acme") [] (fun _ => "") _
    ⟨trivial, trivial, trivial, trivial, rfl, trivial, trivial,
      fun _ => .inl (.inr ⟨⟨rfl, rfl⟩, fun _ _ => rfl⟩), trivial⟩
    ⟨rfl, rfl, rfl, rfl⟩

/-- The same request, the reset task first: it clears the company inside the transaction, the
rollback brings it back, and the connection goes to the pool with it. -/
theorem reset_before_rollback_leaks :
    let r := Machine.run Request.step
      (Request.start (withRequestScope "acme") ([] : List ℕ) fun _ => "")
      [.bind false, .conn .begin, .conn (.stmt 0 false), .conn (.drop true), .drop true, .release,
        .reset fun _ => false, .conn (.task 0)]
    r.returned ∧ r.conn.driver.session.vars "app.company_id" = "acme" ∧
      ¬ (r.closed ∨ r.conn.driver.session.outside ∧
        ∀ var ∈ (withRequestScope "acme").vars, r.conn.driver.session.vars var = "") := by
  refine ⟨by decide, by decide, ?_⟩
  rintro (hclosed | ⟨-, hvars⟩)
  · exact absurd hclosed (by decide)
  · exact absurd (hvars "app.company_id" List.mem_cons_self) (by decide)

/-! ## The order that clears

When no future is dropped while its unit is being finished, it is enough that the reset comes after
every rollback task. -/

/-- With no unit and no task left, the connection is lost or outside any transaction. -/
theorem Inv.outside (h : Inv c) (hunits : c.units = []) (htasks : c.tasks = [])
    (hstopped : c.stopped = false) : c.driver.session.lost = true ∨ c.driver.session.outside := by
  rcases h.standing.inUse htasks hstopped with ⟨hlost, -⟩ | hholds
  · exact .inl hlost
  · have hstacked := hholds.stacked
    rw [hunits] at hstacked
    refine .inr ⟨hstacked.levels_nil, ?_⟩
    cases hab : c.driver.session.aborted with
    | false => rfl
    | true =>
      rw [hab] at hstacked
      cases hstacked

/-- A variable set on the connection is no business of its units. -/
theorem Inv.setConfig (h : Inv c) (var value : String) (wrong : Bool) :
    Inv { c with driver.session := (c.driver.session.setConfig var value wrong).2 } := by
  have hsame : (c.driver.session.setConfig var value wrong).2.durable = c.driver.session.durable ∧
      ∀ {units : List (TxUnit α)}, Holds c.driver units →
        Holds { c.driver with session := (c.driver.session.setConfig var value wrong).2 } units := by
    unfold Session.setConfig
    split
    · exact ⟨rfl, id⟩
    split
    · unfold Session.fail
      split
      · exact ⟨rfl, id⟩
      · rename_i hlevels
        refine ⟨rfl, fun {units} hholds => ⟨?_, hholds.depth_eq, hholds.alive⟩⟩
        have hne : units ≠ [] := by
          rintro rfl
          simp [hholds.stacked.levels_nil] at hlevels
        have habort := hholds.stacked.abort [] hne
        cases units with
        | nil => exact absurd rfl hne
        | cons u units => simpa using habort
    · exact ⟨rfl, fun hholds => ⟨hholds.stacked, hholds.depth_eq, hholds.alive⟩⟩
  exact {
    based := h.based
    durable := fun u hu => (h.durable u hu).trans hsame.1.symm
    tasks := h.tasks
    deep := h.deep
    stopped := h.stopped
    standing := by
      have hlost := Session.setConfig_lost_eq (s := c.driver.session) var value wrong
      rcases h.standing with hgone | ⟨dropped, hdepth, htask, hstate⟩
      · exact .inl ⟨hlost.trans hgone.1, hgone.2⟩
      · exact .inr ⟨dropped, hdepth, htask, hstate.imp hlost.trans hsame.2⟩
    kept := h.kept }

end Backbone.Orm
