import Mathlib.Data.Finset.Card
import Backbone.Workflow.DueClaims
import Backbone.Workflow.Inline

/-!
# The sweep over all instances

A sweep reads up to `sweep_batch` due instances, the longest due first, claims one after the other and
drives on what it claimed. A claim that fails is logged and the instance left as it was, so it is among
the first of the next sweep again. A drive that fails ends the sweep. `isolated` says what keeps an
instance from the claim it is due: in one sweep, a drive in front of it that fails; over a run of sweeps,
also that a whole batch in front of it cannot be claimed.

Reference: `backbone-core/src/workflow/engine.rs` (`sweep_due`, `drive`, `step_once`, `fail_runaway`,
`compensate_company`).
-/

namespace Backbone.Workflow

/-! ## Driving one instance to its next pause -/

/-- What the transactions of one `drive` find around them. -/
structure DriveEnv where
  /-- The `run_one` of each round. -/
  step : ℕ → Env
  /-- The `after_failure` of each round. -/
  failure : ℕ → Env
  runaway : Env
  /-- The `compensate_one` of each compensation step. -/
  compensate : ℕ → Env
  close : Env

namespace DriveEnv

variable (d : DriveEnv) (e : Engine)

/-- The loop and the end of `compensate_company`. -/
def compensateFrom : ℕ → List CompStep → List String → Instance → Instance
  | _, [], failures, w => closeCompensation d.close failures w
  | k, c :: rest, failures, w =>
    match compensateOne e (d.compensate k) c w with
    | .ok (some w') => compensateFrom (k + 1) rest failures w'
    | .ok none => compensateFrom (k + 1) rest failures w
    | .error f =>
      compensateFrom (k + 1) rest (failures ++ [c.name ++ ": " ++ f.message])
        (recordCompensationFailure c f.message w)

/-- `compensate_company`, last declared first. -/
def compensateCompany (w : Instance) : Instance :=
  d.compensateFrom e 0 e.spec.compensation.reverse [] w

/-- `fail_runaway`: the failure it could not handle, if any, and the instance. -/
def failRunaway (w : Instance) : Option StepFailure × Instance :=
  match afterFailure e d.runaway (runawayFailure e) w with
  | .ok (.compensate, w') => (none, d.compensateCompany e w')
  | .ok (_, w') => (none, w')
  | .error f => (some f, w)

/-- The loop of `drive`, with the rounds that are left. A failure that could not be handled either is
an error of the engine. -/
def driveFrom : ℕ → Instance → Option StepFailure × Instance
  | 0, w => d.failRunaway e w
  | n + 1, w =>
    match stepOnce e (d.step n) (d.failure n) w with
    | .ok (.advanced, w') => driveFrom n w'
    | .ok (.compensate, w') => (none, d.compensateCompany e w')
    | .ok (_, w') => (none, w')
    | .error f => (some f, w)

/-- `drive`: the failure that ended it, if any, and the instance as the last commit left it. -/
def drive (w : Instance) : Option StepFailure × Instance :=
  if e.spec.persistence then d.driveFrom e e.maxSteps w else (none, w)

/-- What `sweep_due` does with what it claimed. -/
def afterClaim (claim : Claim) (w : Instance) : Option StepFailure × Instance :=
  match claim with
  | .timedOut | .retry | .recover => d.drive e w
  | .expired => (none, w)
  | .compensate => (none, d.compensateCompany e w)

end DriveEnv

/-! ## A drive is a run of one process -/

/-- The next transaction of a process, and its instance. -/
def Proc.next (e : Engine) (q : Proc × Instance) (env : Env) : Proc × Instance := q.1.txn e env q.2

/-- Transactions of a process, one after the other, end its call and leave the instance as `w`. -/
def Ends (e : Engine) (q : Proc × Instance) (w : Instance) : Prop :=
  ∃ envs, Machine.run (Proc.next e) q envs = (.idle, w)

section

variable {e : Engine} {d : DriveEnv} {w w' : Instance}

theorem Ends.step {q q' : Proc × Instance} (env : Env) (h : q.1.txn e env q.2 = q')
    (hends : Ends e q' w) : Ends e q w := by
  obtain ⟨envs, henvs⟩ := hends
  refine ⟨env :: envs, ?_⟩
  rw [Machine.run_cons, Proc.next, h, henvs]

theorem Ends.idle : Ends e (.idle, w) w := ⟨[], rfl⟩

theorem compensateFrom_ends {k : ℕ} {rest : List CompStep} {failures : List String} :
    Ends e (.compensating rest failures, w) (d.compensateFrom e k rest failures w) := by
  induction rest generalizing k failures w with
  | nil => exact .step d.close rfl .idle
  | cons c rest ih =>
    rw [DriveEnv.compensateFrom]
    cases h : compensateOne e (d.compensate k) c w with
    | error f =>
      have hrun : Proc.txn e (d.compensate k) w (.compensating (c :: rest) failures) =
          (.recording c f.message rest failures, w) := by simp only [Proc.txn, h]
      -- The failure is recorded in a transaction of its own.
      exact .step _ hrun (.step d.close rfl ih)
    | ok r =>
      cases r with
      | none =>
        have hrun : Proc.txn e (d.compensate k) w (.compensating (c :: rest) failures) =
            (.compensating rest failures, w) := by simp only [Proc.txn, h]
        exact .step _ hrun ih
      | some w' =>
        have hrun : Proc.txn e (d.compensate k) w (.compensating (c :: rest) failures) =
            (.compensating rest failures, w') := by simp only [Proc.txn, h]
        exact .step _ hrun ih

theorem failRunaway_ends : Ends e (.runaway, w) (d.failRunaway e w).2 := by
  unfold DriveEnv.failRunaway
  cases h : afterFailure e d.runaway (runawayFailure e) w with
  | error f => exact .step d.runaway (by simp only [Proc.txn, h]) .idle
  | ok r =>
    obtain ⟨last, w'⟩ := r
    cases last with
    | compensate =>
      have hrun : Proc.txn e d.runaway w .runaway = (.compensate e, w') := by
        simp only [Proc.txn, h]
      exact .step _ hrun compensateFrom_ends
    | _ => exact .step d.runaway (by simp only [Proc.txn, h]) .idle

/-- In `drive` with `n` rounds left. -/
def Proc.round (n : ℕ) : Proc := if n = 0 then .runaway else .driving n

theorem driveFrom_ends {n : ℕ} : Ends e (.round n, w) (d.driveFrom e n w).2 := by
  induction n generalizing w with
  | zero => exact failRunaway_ends
  | succ n ih =>
    have hround : ∀ last w', stepOnce e (d.step n) (d.failure n) w = .ok (last, w') →
        Ends e (.afterStep e (n + 1) last, w') (d.driveFrom e (n + 1) w).2 := by
      intro last w' h
      rw [DriveEnv.driveFrom, h]
      cases last with
      | advanced =>
        rw [show Proc.afterStep e (n + 1) .advanced = .round n by cases n <;> rfl]
        exact ih
      | compensate => exact compensateFrom_ends
      | paused => exact .idle
      | finished => exact .idle
    rw [show Proc.round (n + 1) = .driving (n + 1) from rfl]
    cases hrun : runOne e (d.step n) w with
    | ok r =>
      have h : stepOnce e (d.step n) (d.failure n) w = .ok r := by rw [stepOnce, hrun]
      exact .step (d.step n) (by simp only [Proc.txn, hrun]) (hround r.1 r.2 h)
    | error f =>
      have hfailed : Proc.txn e (d.step n) w (.driving (n + 1)) = (.failed (n + 1) f, w) := by
        simp only [Proc.txn, hrun]
      refine .step _ hfailed ?_
      cases hfail : afterFailure e (d.failure n) f w with
      | ok r =>
        have h : stepOnce e (d.step n) (d.failure n) w = .ok r := by rw [stepOnce, hrun]; exact hfail
        exact .step (d.failure n) (by simp only [Proc.txn, hfail]) (hround r.1 r.2 h)
      | error f' =>
        have h : stepOnce e (d.step n) (d.failure n) w = .error f' := by rw [stepOnce, hrun]; exact hfail
        rw [DriveEnv.driveFrom, h]
        exact .step (d.failure n) (by simp only [Proc.txn, hfail]) .idle

/-- What a sweep does with its claim is what a process does that goes on from it alone. -/
theorem afterClaim_ends {claim : Claim} :
    Ends e (.afterClaim e claim, w) (d.afterClaim e claim w).2 := by
  have hdrive : Ends e (.drive e, w) (d.drive e w).2 := by
    unfold Proc.drive DriveEnv.drive
    split
    · have hpos : e.maxSteps ≠ 0 := by unfold Engine.maxSteps; omega
      rw [← show Proc.round e.maxSteps = .driving e.maxSteps from if_neg hpos]
      exact driveFrom_ends
    · exact .idle
  cases claim with
  | expired => exact .idle
  | compensate => exact compensateFrom_ends
  | timedOut => exact hdrive
  | retry => exact hdrive
  | recover => exact hdrive

end

/-! ## The sweep -/

/-- An engine with all its definitions. -/
structure Sweeper where
  cfg : EngineConfig := {}
  sweepBatch : ℕ := 50
  defs : List WorkflowSpec
  floatText : UInt64 → String

/-- `def_named`. -/
def Sweeper.defNamed (S : Sweeper) (name : String) : Option Engine :=
  (S.defs.find? (·.name == name)).map fun spec => { cfg := S.cfg, spec, floatText := S.floatText }

/-- The table `bb_workflow_instances` by its key. -/
abbrev Fleet := Uuid → Option Instance

/-- What a sweep finds around it: the clock of its `SELECT`, and of each instance what its claim and its
drive find. -/
structure SweepEnv where
  now : Time
  claim : Uuid → Env
  drive : Uuid → DriveEnv

/-- The outcome of a sweep: what it claimed, the failure that ended it, and the table. -/
structure Swept where
  claimed : List (Uuid × Claim)
  error : Option StepFailure
  fleet : Fleet

/-- `SweepReport`. -/
structure SweepReport where
  timedOut : List Uuid
  expired : List Uuid
  retried : List Uuid
  recovered : List Uuid
  compensated : List Uuid
deriving DecidableEq, Repr

/-- What `sweep` answers. -/
def Swept.report (r : Swept) : Except StepFailure SweepReport :=
  let of (claim : Claim) : List Uuid := (r.claimed.filter (·.2 = claim)).map (·.1)
  match r.error with
  | some f => .error f
  | none => .ok ⟨of .timedOut, of .expired, of .retry, of .recover, of .compensate⟩

section Sweeping

variable (S : Sweeper) (se : SweepEnv)

/-- `COALESCE(wait_due_at, deadline_at, updated_at)`. -/
def sweepKey (row : InstanceRow) : Time :=
  row.waitDueAt.getD (row.deadlineAt.getD row.updatedAt)

/-- The instance is due when the sweep reads its candidates. -/
def DueAt (fleet : Fleet) (id : Uuid) : Prop :=
  ∃ w, fleet id = some w ∧ due S.cfg se.now w.row = true

/-- `a` sorts before `b`, or at the same time. -/
def NoLater (fleet : Fleet) (a b : Uuid) : Prop :=
  ∃ v w, fleet a = some v ∧ fleet b = some w ∧ sweepKey v.row ≤ sweepKey w.row

/-- The candidates a sweep may read: up to a batch of due instances in order, and none left out before
one that is in. -/
structure Candidates (fleet : Fleet) (ids : List Uuid) : Prop where
  nodup : ids.Nodup
  length_le : ids.length ≤ S.sweepBatch
  due : ∀ id ∈ ids, DueAt S se fleet id
  sorted : ids.Pairwise (NoLater fleet)
  full : ∀ id, DueAt S se fleet id → id ∉ ids →
    ids.length = S.sweepBatch ∧ ∀ other ∈ ids, NoLater fleet other id

/-- The definition of a candidate and its claim. -/
def claimAt (fleet : Fleet) (id : Uuid) :
    Except StepFailure (Option (Engine × Claim × Instance)) :=
  match fleet id with
  | none => pure none
  | some w =>
    match S.defNamed w.row.workflow with
    | none => pure none
    | some e => do
      let claimed ← claimDue e (se.claim id) w
      pure (claimed.map fun (claim, w') => (e, claim, w'))

/-- The loop of `sweep_due`. -/
def sweepFrom : List Uuid → Fleet → Swept
  | [], fleet => ⟨[], none, fleet⟩
  | id :: rest, fleet =>
    match claimAt S se fleet id with
    | .ok (some (e, claim, w)) =>
      match (se.drive id).afterClaim e claim w with
      | (none, w') =>
        let swept := sweepFrom rest (Function.update fleet id (some w'))
        { swept with claimed := (id, claim) :: swept.claimed }
      | (some f, w') => ⟨[(id, claim)], some f, Function.update fleet id (some w')⟩
    -- Nothing to claim, or a claim that failed and is logged.
    | .ok none | .error _ => sweepFrom rest fleet

end Sweeping

variable {S : Sweeper} {se : SweepEnv} {fleet : Fleet} {id x : Uuid} {ids : List Uuid}
  {fleet' : Fleet} {rest : List Uuid} {se : SweepEnv} {e : Engine} {claim : Claim} {w w' : Instance}

/-- The instance can be claimed. -/
def Claimable (S : Sweeper) (se : SweepEnv) (fleet : Fleet) (id : Uuid) : Prop :=
  ∃ r, claimAt S se fleet id = .ok (some r)

/-- The instance can be claimed, and the failure of its drive ends the sweep. -/
def EndsSweep (S : Sweeper) (se : SweepEnv) (fleet : Fleet) (id : Uuid) : Prop :=
  ∃ e claim w f w', claimAt S se fleet id = .ok (some (e, claim, w)) ∧
    (se.drive id).afterClaim e claim w = (some f, w')

/-- The sweep claims the instance. -/
def Swept.Claimed (r : Swept) (id : Uuid) : Prop := ∃ claim, (id, claim) ∈ r.claimed

/-! ## One sweep -/

/-- A claim reads no other instance. -/
theorem claimAt_congr (h : fleet id = fleet' id) :
    claimAt S se fleet id = claimAt S se fleet' id := by
  unfold claimAt
  rw [h]

theorem claimable_congr (h : fleet id = fleet' id) :
    Claimable S se fleet id ↔ Claimable S se fleet' id := by
  unfold Claimable
  rw [claimAt_congr h]

theorem endsSweep_congr (h : fleet id = fleet' id) :
    EndsSweep S se fleet id ↔ EndsSweep S se fleet' id := by
  unfold EndsSweep
  rw [claimAt_congr h]

/-! What the loop does with its first candidate. -/

theorem sweepFrom_of_claimed (h : claimAt S se fleet id = .ok (some (e, claim, w)))
    (hdrive : (se.drive id).afterClaim e claim w = (none, w')) :
    sweepFrom S se (id :: rest) fleet =
      { sweepFrom S se rest (Function.update fleet id (some w')) with
        claimed := (id, claim) ::
          (sweepFrom S se rest (Function.update fleet id (some w'))).claimed } := by
  rw [sweepFrom, h]
  simp only [hdrive]

theorem sweepFrom_of_failed {f : StepFailure}
    (h : claimAt S se fleet id = .ok (some (e, claim, w)))
    (hdrive : (se.drive id).afterClaim e claim w = (some f, w')) :
    sweepFrom S se (id :: rest) fleet =
      ⟨[(id, claim)], some f, Function.update fleet id (some w')⟩ := by
  rw [sweepFrom, h]
  simp only [hdrive]

theorem sweepFrom_of_not_claimable (h : ¬ Claimable S se fleet id) :
    sweepFrom S se (id :: rest) fleet = sweepFrom S se rest fleet := by
  rw [sweepFrom]
  cases hclaim : claimAt S se fleet id with
  | error f => rfl
  | ok r =>
    cases r with
    | none => rfl
    | some r => exact absurd ⟨r, hclaim⟩ h

/-- A candidate that can be claimed is claimed unless a drive before it fails. -/
theorem claimed_iff {pre post : List Uuid} (hnodup : (pre ++ x :: post).Nodup)
    (hx : Claimable S se fleet x) :
    (sweepFrom S se (pre ++ x :: post) fleet).Claimed x ↔ ∀ y ∈ pre, ¬ EndsSweep S se fleet y := by
  induction pre generalizing fleet with
  | nil =>
    obtain ⟨⟨e, claim, w⟩, hclaim⟩ := hx
    refine iff_of_true ⟨claim, ?_⟩ fun y hy => by cases hy
    rw [List.nil_append]
    obtain ⟨failed, w', hdrive⟩ : ∃ failed w',
        (se.drive x).afterClaim e claim w = (failed, w') := ⟨_, _, rfl⟩
    cases failed with
    | none => rw [sweepFrom_of_claimed hclaim hdrive]; exact List.mem_cons_self
    | some f => rw [sweepFrom_of_failed hclaim hdrive]; exact List.mem_singleton_self _
  | cons y pre ih =>
    rw [List.cons_append, List.nodup_cons] at hnodup
    obtain ⟨hy, hnodup⟩ := hnodup
    have hyx : x ≠ y := fun h => hy (by simp [h])
    rw [List.cons_append, List.forall_mem_cons]
    by_cases hclaimable : Claimable S se fleet y
    · obtain ⟨⟨e, claim, w⟩, hclaim⟩ := hclaimable
      obtain ⟨failed, w', hdrive⟩ : ∃ failed w',
          (se.drive y).afterClaim e claim w = (failed, w') := ⟨_, _, rfl⟩
      cases failed with
      | none =>
        -- The rest of the sweep finds every other instance as it was.
        have hother : ∀ z, z ≠ y → fleet z = Function.update fleet y (some w') z :=
          fun z hz => (Function.update_of_ne hz _ _).symm
        have hends : ¬ EndsSweep S se fleet y := by
          rintro ⟨e', claim', v, f, v', hclaim', hdrive'⟩
          rw [hclaim] at hclaim'
          cases hclaim'
          rw [hdrive] at hdrive'
          cases hdrive'
        have hrest := ih hnodup ((claimable_congr (hother x hyx)).mp hx)
        rw [sweepFrom_of_claimed hclaim hdrive]
        constructor
        · rintro ⟨claim', hmem⟩
          rcases List.mem_cons.mp hmem with heq | hmem
          · cases heq
            exact absurd rfl hyx
          · refine ⟨hends, fun z hz => ?_⟩
            have hzy : z ≠ y := fun h => hy (by simp [← h, hz])
            rw [endsSweep_congr (hother z hzy)]
            exact hrest.mp ⟨claim', hmem⟩ z hz
        · rintro ⟨-, hpre⟩
          obtain ⟨claim', hmem⟩ := hrest.mpr fun z hz => by
            have hzy : z ≠ y := fun h => hy (by simp [← h, hz])
            rw [← endsSweep_congr (hother z hzy)]
            exact hpre z hz
          exact ⟨claim', List.mem_cons_of_mem _ hmem⟩
      | some f =>
        rw [sweepFrom_of_failed hclaim hdrive]
        refine iff_of_false ?_ fun h => h.1 ⟨e, claim, w, f, w', hclaim, hdrive⟩
        rintro ⟨claim', hmem⟩
        cases List.mem_singleton.mp hmem
        exact hyx rfl
    · have hends : ¬ EndsSweep S se fleet y := by
        rintro ⟨e, claim, w, -, -, hclaim, -⟩
        exact hclaimable ⟨_, hclaim⟩
      rw [sweepFrom_of_not_claimable hclaimable, ih hnodup hx]
      exact (and_iff_right hends).symm

/-! ## Sweep after sweep -/

/-- The table, and what the sweeps have claimed so far. -/
structure Sweeps where
  fleet : Fleet
  claimed : List Uuid

inductive SweepAct where
  /-- A sweep that read the candidates `ids`. -/
  | sweep (se : SweepEnv) (ids : List Uuid)
  /-- Whatever else happens to the table. -/
  | others (fleet : Fleet)

def Sweeps.step (S : Sweeper) (q : Sweeps) : SweepAct → Sweeps
  | .sweep se ids =>
    let swept := sweepFrom S se ids q.fleet
    ⟨swept.fleet, q.claimed ++ swept.claimed.map (·.1)⟩
  | .others fleet => { q with fleet }

def SweepAct.isSweep : SweepAct → Bool
  | .sweep _ _ => true
  | .others _ => false

/-- How many sweeps a run makes. -/
def sweepCount (as : List SweepAct) : ℕ := as.countP (·.isSweep)

/-- The instance is due at this sweep, and sorts no later than `x`. -/
def Ahead (S : Sweeper) (se : SweepEnv) (fleet : Fleet) (x y : Uuid) : Prop :=
  y ≠ x ∧ DueAt S se fleet y ∧ NoLater fleet y x

/-- Nothing stands between this sweep and the claim of `x`, now or after the sweeps it takes to get
through `front`. -/
structure Unobstructed (S : Sweeper) (front : Finset Uuid) (x : Uuid) (q : Sweeps) (se : SweepEnv) :
    Prop where
  due : DueAt S se q.fleet x
  claimable : Claimable S se q.fleet x
  /-- Whoever is ahead was there from the start, and has not had its turn. -/
  front : ∀ y, Ahead S se q.fleet x y → y ∈ front ∧ y ∉ q.claimed
  /-- Fewer than a batch of those ahead cannot be claimed. -/
  room : ∀ stuck : Finset Uuid, (∀ y ∈ stuck, Ahead S se q.fleet x y ∧ ¬ Claimable S se q.fleet y) →
    stuck.card < S.sweepBatch
  /-- No drive of one ahead fails. -/
  drives : ∀ y, Ahead S se q.fleet x y → ¬ EndsSweep S se q.fleet y

/-- Each sweep reads its candidates, and finds `x` claimed or unobstructed. -/
def Advances (S : Sweeper) (front : Finset Uuid) (x : Uuid) (q : Sweeps) : SweepAct → Prop
  | .sweep se ids => Candidates S se q.fleet ids ∧ (x ∈ q.claimed ∨ Unobstructed S front x q se)
  | .others _ => True

section Runs

variable {front : Finset Uuid} {q : Sweeps} {y : Uuid} {as : List SweepAct}

theorem Sweeps.mem_step {a : SweepAct} (h : y ∈ q.claimed) : y ∈ (q.step S a).claimed := by
  cases a with
  | sweep se ids => exact List.mem_append_left _ h
  | others fleet => exact h

theorem Sweeps.mem_run (h : y ∈ q.claimed) : y ∈ (Machine.run (Sweeps.step S) q as).claimed :=
  Machine.invariant_run (Sweeps.step S) (I := fun q => y ∈ q.claimed)
    (fun _ _ => Sweeps.mem_step) as h

theorem Sweeps.mem_step_sweep (h : (sweepFrom S se ids q.fleet).Claimed y) :
    y ∈ (q.step S (.sweep se ids)).claimed := by
  obtain ⟨claim, hmem⟩ := h
  exact List.mem_append_right _ (List.mem_map_of_mem (f := Prod.fst) hmem)

/-- An unobstructed sweep claims `x`, or one ahead of it that had not had its turn. -/
theorem Unobstructed.sweep (h : Unobstructed S front x q se) (hids : Candidates S se q.fleet ids) :
    (sweepFrom S se ids q.fleet).Claimed x ∨
      ∃ y ∈ front, y ∉ q.claimed ∧ (sweepFrom S se ids q.fleet).Claimed y := by
  -- A candidate that can be claimed, with nobody but those ahead of `x` in front of it, is claimed.
  have hreach : ∀ y ∈ ids, Claimable S se q.fleet y →
      (∀ pre post, ids = pre ++ y :: post → ∀ z ∈ pre, Ahead S se q.fleet x z) →
      (sweepFrom S se ids q.fleet).Claimed y := by
    intro y hy hclaimable hahead
    obtain ⟨pre, post, rfl⟩ := List.append_of_mem hy
    rw [claimed_iff hids.nodup hclaimable]
    exact fun z hz => h.drives z (hahead pre post rfl z hz)
  by_cases hx : x ∈ ids
  · refine .inl (hreach x hx h.claimable fun pre post heq z hz => ?_)
    have hnodup := hids.nodup
    have hsorted := hids.sorted
    rw [heq] at hnodup hsorted
    have hzx : z ≠ x := fun hzx =>
      (List.nodup_append.mp hnodup).2.2 z hz x List.mem_cons_self hzx
    exact ⟨hzx, hids.due z (by simp [heq, hz]),
      (List.pairwise_append.mp hsorted).2.2 z hz x List.mem_cons_self⟩
  · obtain ⟨hlen, hlater⟩ := hids.full x h.due hx
    have hahead : ∀ z ∈ ids, Ahead S se q.fleet x z :=
      fun z hz => ⟨fun hzx => hx (hzx ▸ hz), hids.due z hz, hlater z hz⟩
    -- The batch has room for one that can be claimed.
    obtain ⟨y, hy, hclaimable⟩ : ∃ y ∈ ids, Claimable S se q.fleet y := by
      by_contra hnone
      have hroom := h.room ids.toFinset fun z hz =>
        ⟨hahead z (List.mem_toFinset.mp hz),
          fun hclaim => hnone ⟨z, List.mem_toFinset.mp hz, hclaim⟩⟩
      rw [List.toFinset_card_of_nodup hids.nodup, hlen] at hroom
      exact Nat.lt_irrefl _ hroom
    obtain ⟨hfront, hfresh⟩ := h.front y (hahead y hy)
    refine .inr ⟨y, hfront, hfresh, hreach y hy hclaimable fun pre post heq z hz => ?_⟩
    exact hahead z (by simp [heq, hz])

/-- Each sweep takes `x` or one more of the front. -/
theorem claimed_of_advances {done : Finset Uuid} (hdone : done ⊆ front)
    (hclaimed : ∀ y ∈ done, y ∈ q.claimed)
    (has : Machine.Along (Sweeps.step S) (Advances S front x) q as)
    (hlong : front.card < done.card + sweepCount as) :
    x ∈ (Machine.run (Sweeps.step S) q as).claimed := by
  induction as generalizing q done with
  | nil => exact absurd (Finset.card_le_card hdone) (Nat.not_le.mpr hlong)
  | cons a as ih =>
    obtain ⟨ha, hrest⟩ := has
    cases a with
    | others fleet => exact ih hdone hclaimed hrest hlong
    | sweep se ids =>
      obtain ⟨hids, hx | hfree⟩ := ha
      · exact Sweeps.mem_run hx
      · rw [Machine.run_cons]
        rcases hfree.sweep hids with hx | ⟨y, hy, hfresh, hclaim⟩
        · exact Sweeps.mem_run (Sweeps.mem_step_sweep hx)
        · -- The instance claimed here is one the sweeps before had not claimed.
          refine ih (Finset.insert_subset hy hdone) (fun z hz => ?_) hrest ?_
          · rcases Finset.mem_insert.mp hz with rfl | hz
            · exact Sweeps.mem_step_sweep hclaim
            · exact Sweeps.mem_step (hclaimed z hz)
          · rw [Finset.card_insert_of_notMem fun hz => hfresh (hclaimed y hz)]
            have hcount : sweepCount (.sweep se ids :: as) = sweepCount as + 1 :=
              List.countP_cons_of_pos rfl
            omega

end Runs

/-- In one sweep, an instance of the batch that can be claimed is claimed exactly when no drive before it
fails. In a run whose sweeps it is unobstructed in, it is claimed once the sweeps outnumber the
instances in front of it. -/
theorem isolated (S : Sweeper) (x : Uuid) :
    (∀ se fleet pre post, Candidates S se fleet (pre ++ x :: post) → Claimable S se fleet x →
      ((sweepFrom S se (pre ++ x :: post) fleet).Claimed x ↔
        ∀ y ∈ pre, ¬ EndsSweep S se fleet y)) ∧
      ∀ front fleet as, Machine.Along (Sweeps.step S) (Advances S front x) ⟨fleet, []⟩ as →
        front.card < sweepCount as →
        x ∈ (Machine.run (Sweeps.step S) ⟨fleet, []⟩ as).claimed := by
  constructor
  · exact fun se fleet pre post hids hx => claimed_iff hids.nodup hx
  · intro front fleet as has hlong
    refine claimed_of_advances (Finset.empty_subset front) (fun y hy => ?_) has ?_
    · exact absurd hy (Finset.notMem_empty y)
    · rwa [Finset.card_empty, Nat.zero_add]

/-! ## A reminder that cannot be sent -/

/-- Who does not pay in time is reminded; a reminder that is refused ends the invoice as lost. -/
def reminderSpec : WorkflowSpec where
  name := "invoice"
  triggerEvent := "InvoiceSent"
  steps := [
    { name := "payment",
      kind := .wait (some "PaymentReceived") [] none (some { next := some "paid" })
        (some { next := some "remind", set := [("reminder", .lit (.str "first"))] }) },
    { name := "remind", kind := .action "remind" none none [] { next := some "payment" } none,
      onFailure := some { next := some "lost", set := [("lost", .lit (.bool true))] } },
    { name := "paid", kind := .terminal .completed none none false none },
    { name := "lost", kind := .terminal .failed none none false none }]

/-- A sweep takes up to `sweepBatch` invoices. -/
def reminders (sweepBatch : ℕ) : Sweeper where
  sweepBatch := sweepBatch
  defs := [reminderSpec]
  floatText := fun _ => ""

/-- An invoice whose payment was due at `waitDueAt`. -/
def unpaid (id : Uuid) (waitDueAt : Time) : Instance :=
  { awaited (some waitDueAt) none with row := { (awaited (some waitDueAt) none).row with id } }

/-- Two unpaid invoices, the first due before the second. -/
def twoUnpaid : Fleet := fun id =>
  if id = 1 then some (unpaid 1 3) else if id = 2 then some (unpaid 2 4) else none

/-- Surroundings where no template renders. -/
def Env.unrendered : Env := { clocks 9 9 with render := fun _ _ _ => .error "unknown function" }

def DriveEnv.calm : DriveEnv := ⟨fun _ => .calm, fun _ => .calm, .calm, fun _ => .calm, .calm⟩

/-- The outcome of the first invoice's timeout does not render. -/
def stuckFirst : SweepEnv where
  now := 9
  claim := fun id => if id = 1 then .unrendered else clocks 9 9
  drive := fun _ => .calm

/-- The first invoice's reminder is refused, and the route of its failure does not render. -/
def faultyFirst : SweepEnv where
  now := 9
  claim := fun _ => clocks 9 9
  drive := fun _ => { DriveEnv.calm with step := fun _ => .refusing, failure := fun _ => .unrendered }

theorem dueAt_twoUnpaid {n : ℕ} (h : se.now = 9) :
    DueAt (reminders n) se twoUnpaid id ↔ id = 1 ∨ id = 2 := by
  constructor
  · rintro ⟨w, hw, -⟩
    by_contra hid
    rw [not_or] at hid
    rw [twoUnpaid, if_neg hid.1, if_neg hid.2] at hw
    cases hw
  · rintro (rfl | rfl)
    · exact ⟨unpaid 1 3, rfl, by rw [h]; rfl⟩
    · exact ⟨unpaid 2 4, rfl, by rw [h]; rfl⟩

/-- Both are in a batch of two. -/
theorem candidates_two (h : se.now = 9) :
    Candidates (reminders 2) se twoUnpaid [1, 2] where
  nodup := by decide
  length_le := Nat.le_refl 2
  due := fun id hid => (dueAt_twoUnpaid h).mpr (by simpa using hid)
  sorted := List.pairwise_pair.mpr ⟨unpaid 1 3, unpaid 2 4, rfl, rfl, by decide⟩
  full := fun id hdue hid => absurd (by simpa using (dueAt_twoUnpaid h).mp hdue) hid

/-- The first is a batch of one. -/
theorem candidates_one (h : se.now = 9) :
    Candidates (reminders 1) se twoUnpaid [1] where
  nodup := by decide
  length_le := Nat.le_refl 1
  due := fun id hid => (dueAt_twoUnpaid h).mpr (.inl (by simpa using hid))
  sorted := List.pairwise_singleton _ _
  full := by
    intro id hdue hid
    obtain rfl | rfl := (dueAt_twoUnpaid h).mp hdue
    · exact absurd (List.mem_singleton_self 1) hid
    · refine ⟨rfl, fun other hother => ?_⟩
      obtain rfl := List.mem_singleton.mp hother
      exact ⟨unpaid 1 3, unpaid 2 4, rfl, rfl, by decide⟩

theorem not_claimable_stuck {n : ℕ} : ¬ Claimable (reminders n) stuckFirst twoUnpaid 1 := by
  rintro ⟨r, hr⟩
  cases hr

/-- The stuck invoice does not keep the other from its claim: at once, and by the second sweep at the
latest. -/
theorem isolated_stuckFirst :
    (sweepFrom (reminders 2) stuckFirst [1, 2] twoUnpaid).Claimed 2 ∧
      2 ∈ (Machine.run (Sweeps.step (reminders 2)) ⟨twoUnpaid, []⟩
        [.sweep stuckFirst [1, 2], .others twoUnpaid, .sweep stuckFirst [1, 2]]).claimed := by
  have hclaimable : Claimable (reminders 2) stuckFirst twoUnpaid 2 := ⟨_, rfl⟩
  have hends : ¬ EndsSweep (reminders 2) stuckFirst twoUnpaid 1 := by
    rintro ⟨e, claim, w, f, w', h, -⟩
    exact not_claimable_stuck ⟨_, h⟩
  have hahead : ∀ y, Ahead (reminders 2) stuckFirst twoUnpaid 2 y → y = 1 :=
    fun y hy => ((dueAt_twoUnpaid rfl).mp hy.2.1).resolve_right hy.1
  have hfree : Unobstructed (reminders 2) {1} 2 ⟨twoUnpaid, []⟩ stuckFirst :=
    { due := (dueAt_twoUnpaid rfl).mpr (.inr rfl)
      claimable := hclaimable
      front := fun y hy => ⟨by simp [hahead y hy], List.not_mem_nil⟩
      room := fun stuck hstuck => by
        have hsub : stuck ⊆ {1} := fun y hy => by simp [hahead y (hstuck y hy).1]
        exact Nat.lt_of_le_of_lt (Finset.card_le_card hsub) (by decide)
      drives := fun y hy => by rw [hahead y hy]; exact hends }
  have hsweep : 2 ∈ (Sweeps.step (reminders 2) ⟨twoUnpaid, []⟩
      (.sweep stuckFirst [1, 2])).claimed := by decide
  constructor
  · exact ((isolated (reminders 2) 2).1 stuckFirst twoUnpaid [1] [] (candidates_two rfl)
      hclaimable).mpr (by simpa using hends)
  · exact (isolated (reminders 2) 2).2 {1} twoUnpaid _
      ⟨⟨candidates_two rfl, .inr hfree⟩, trivial, ⟨candidates_two rfl, .inl hsweep⟩, trivial⟩
      (by decide)

/-- The drive of the first invoice ends the sweep before the second is claimed. In a batch of one, the
first invoice cannot be claimed, and however often the sweep runs the second has no turn. -/
theorem not_isolated :
    (Candidates (reminders 2) faultyFirst twoUnpaid [1, 2] ∧
      Claimable (reminders 2) faultyFirst twoUnpaid 2 ∧
      ¬ (sweepFrom (reminders 2) faultyFirst [1, 2] twoUnpaid).Claimed 2) ∧
    Claimable (reminders 1) stuckFirst twoUnpaid 2 ∧
      ∀ n, Machine.Along (Sweeps.step (reminders 1))
          (fun q a => a = .sweep stuckFirst [1] ∧ Candidates (reminders 1) stuckFirst q.fleet [1])
          ⟨twoUnpaid, []⟩ (List.replicate n (.sweep stuckFirst [1])) ∧
        (Machine.run (Sweeps.step (reminders 1)) ⟨twoUnpaid, []⟩
          (List.replicate n (.sweep stuckFirst [1]))).claimed = [] := by
  refine ⟨⟨candidates_two rfl, ⟨_, rfl⟩, ?_⟩, ⟨_, rfl⟩, fun n => ?_⟩
  · rintro ⟨claim, hmem⟩
    cases List.mem_singleton.mp hmem
  · -- A sweep leaves everything as it was.
    have hsame : Sweeps.step (reminders 1) ⟨twoUnpaid, []⟩ (.sweep stuckFirst [1]) =
        ⟨twoUnpaid, []⟩ := rfl
    induction n with
    | zero => exact ⟨trivial, rfl⟩
    | succ n ih =>
      rw [List.replicate_succ, Machine.run_cons, hsame]
      refine ⟨⟨⟨rfl, candidates_one rfl⟩, ?_⟩, ih.2⟩
      rw [hsame]
      exact ih.1

end Backbone.Workflow
