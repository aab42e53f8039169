import Backbone.Orm.WriteTx

/-!
# What a tree of write units leaves

In every run in which the connection waits for the rollback of a dropped unit, and no future is
dropped while its unit is being finished: an outermost unit that returns `Ok` made durable exactly
the statements whose enclosing units all returned `Ok`, one that returns `Err` made nothing durable,
and the depth is back at the unit's base or the connection is to be closed.

A unit that is dropped inside one that goes on is rolled back by a task that races the enclosing
unit. When the enclosing unit comes first, its commit releases the dropped unit's savepoint, it
returns `Ok`, and its transaction stays open.
-/

namespace Backbone.Orm

open Pg

variable {α : Type*} {c : Connection α} {units : List (TxUnit α)}

/-! ## The invariant -/

/-- Each unit's `base_depth` is the number of the units below it. -/
def Based : List (TxUnit α) → Prop
  | [] => True
  | u :: units => u.base = units.length ∧ Based units

theorem Based.adopt (h : Based units) (stmts : List α) : Based (adopt stmts units) := by
  cases units with
  | nil => trivial
  | cons u units => exact h

theorem durableAt_adopt {durable durable' : List α}
    (h : ∀ u ∈ units, u.durableAt = durable) (hsame : units ≠ [] → durable' = durable)
    (stmts : List α) : ∀ u ∈ adopt stmts units, u.durableAt = durable' := by
  intro u hu
  cases units with
  | nil => simp at hu
  | cons v units =>
    rw [hsame (by simp)]
    rcases List.mem_cons.mp hu with rfl | hu
    · exact h v List.mem_cons_self
    · exact h u (List.mem_cons_of_mem _ hu)

/-- A finished unit kept its word: the outermost one made durable its statements or nothing, a
nested one nothing, and the depth is back. -/
structure Kept (f : Finished α) : Prop where
  committed : f.base = 0 → f.ok = true → f.after = f.before ++ f.stmts
  undone : f.ok = false → f.after = f.before
  nested : f.base ≠ 0 → f.after = f.before
  depth : f.closing = true ∨ f.depth = f.base

/-- The state of a connection that no task waits for: lost, or on exactly the levels of its units. -/
def InUse (d : Driver α) (units : List (TxUnit α)) : Prop :=
  d.session.lost = true ∧ (d.closing = true ∨ d.depth = units.length) ∨ Holds d units

/-- Where a connection stands: lost and to be closed; or with its units, and above them dropped ones
that a task, if any is left to run, is still to roll back. -/
def Standing (c : Connection α) : Prop :=
  c.driver.session.lost = true ∧ c.driver.closing = true ∨
  ∃ dropped : List (TxUnit α), c.driver.depth = dropped.length + c.units.length ∧
    (dropped ≠ [] → c.units.length ∈ c.tasks ∨ c.stopped = true) ∧
    (c.driver.session.lost = true ∨ Holds c.driver (dropped ++ c.units))

structure Inv (c : Connection α) : Prop where
  based : Based c.units
  durable : ∀ u ∈ c.units, u.durableAt = c.driver.session.durable
  tasks : ∀ base ∈ c.tasks, c.units.length ≤ base
  deep : c.units.length ≤ c.driver.depth
  stopped : c.stopped = true → c.driver.closing = true
  standing : Standing c
  kept : ∀ f ∈ c.log, Kept f

theorem InUse.standing (h : InUse c.driver c.units) : Standing c := by
  rcases h with ⟨hlost, hclosing | hdepth⟩ | hholds
  · exact .inl ⟨hlost, hclosing⟩
  · exact .inr ⟨[], by simpa using hdepth, fun h => absurd rfl h, .inl hlost⟩
  · exact .inr ⟨[], by simpa using hholds.depth_eq, fun h => absurd rfl h, .inr hholds⟩

theorem Standing.inUse (h : Standing c) (htasks : c.tasks = []) (hstopped : c.stopped = false) :
    InUse c.driver c.units := by
  rcases h with hgone | ⟨dropped, hdepth, htask, hstate⟩
  · exact .inl ⟨hgone.1, .inl hgone.2⟩
  · obtain rfl : dropped = [] := by
      by_contra hne
      have := htask hne
      simp [htasks, hstopped] at this
    rcases hstate with hlost | hholds
    · exact .inl ⟨hlost, .inr (by simpa using hdepth)⟩
    · exact .inr hholds

theorem inv_idle (durable : List α) (vars : String → String) :
    Inv (Connection.idle durable vars) where
  based := trivial
  durable := nofun
  tasks := nofun
  deep := Nat.le_refl _
  stopped := nofun
  standing := .inr ⟨[], rfl, fun h => absurd rfl h, .inr ⟨.nil, rfl, rfl⟩⟩
  kept := nofun

/-! ## Steps -/

theorem Inv.begin (h : Inv c) (htasks : c.tasks = []) (hstopped : c.stopped = false) :
    Inv (c.step .begin) := by
  rcases h.standing.inUse htasks hstopped with ⟨hlost, -⟩ | hholds
  · simpa only [Connection.step, begin_of_lost hlost] using h
  rcases hholds.begin c.driver.session.durable with hbegin | ⟨d', hbegin, hholds', hsame⟩
  · simpa only [Connection.step, hbegin] using h
  · simp only [Connection.step, hbegin]
    exact {
      based := ⟨hholds.depth_eq, h.based⟩
      durable := by
        rw [List.forall_mem_cons, hsame.durable]
        exact ⟨rfl, h.durable⟩
      tasks := by simp [htasks]
      deep := Nat.le_of_eq hholds'.depth_eq.symm
      stopped := by simp [hstopped]
      standing := InUse.standing (.inr hholds')
      kept := h.kept }

theorem Inv.stmt (h : Inv c) (a : α) (wrong : Bool) (htasks : c.tasks = [])
    (hstopped : c.stopped = false) : Inv (c.step (.stmt a wrong)) := by
  simp only [Connection.step]
  rcases h.standing.inUse htasks hstopped with ⟨hlost, hstate⟩ | hholds
  · rw [Session.exec_lost a wrong hlost]
    exact {
      based := h.based.adopt _
      durable := durableAt_adopt h.durable (fun _ => rfl) [a]
      tasks := by simp [htasks]
      deep := by simpa using h.deep
      stopped := by simp [hstopped]
      standing := InUse.standing (.inl ⟨hlost, by simpa using hstate⟩)
      kept := h.kept }
  · obtain ⟨hholds', hsame⟩ := hholds.stmt a wrong
    exact {
      based := h.based.adopt _
      durable := durableAt_adopt h.durable hsame [a]
      tasks := by simp [htasks]
      deep := Nat.le_of_eq hholds'.depth_eq.symm
      stopped := by simp [hstopped]
      standing := InUse.standing (.inr hholds')
      kept := h.kept }

theorem Inv.finish (h : Inv c) (ok refused : Bool) (htasks : c.tasks = [])
    (hstopped : c.stopped = false) : Inv (c.step (.finish ok refused)) := by
  obtain ⟨driver, units, tasks, stopped, log⟩ := c
  obtain rfl : tasks = [] := htasks
  cases units with
  | nil => exact h
  | cons u units =>
    obtain ⟨hbase, hbased⟩ := h.based
    have hbefore : u.durableAt = driver.session.durable := h.durable u List.mem_cons_self
    have hrest : ∀ v ∈ units, v.durableAt = driver.session.durable := fun v hv =>
      h.durable v (List.mem_cons_of_mem _ hv)
    have hdeep : u.base < driver.depth := by
      have := h.deep
      simp only [List.length_cons] at this
      omega
    have hkept : ∀ {f : Finished α}, Kept f → ∀ g ∈ log ++ [f], Kept g := by
      intro f hf g hg
      rcases List.mem_append.mp hg with hg | hg
      · exact h.kept g hg
      · exact List.mem_singleton.mp hg ▸ hf
    simp only [Connection.step]
    rcases h.standing.inUse rfl hstopped with ⟨hlost, -⟩ | hholds
    · rw [finish_of_lost ok refused hlost hdeep]
      exact {
        based := hbased
        durable := hrest
        tasks := nofun
        deep := by
          have := h.deep
          simp only [List.length_cons] at this
          exact Nat.le_trans (Nat.le_succ _) this
        stopped := fun _ => rfl
        standing := .inl ⟨hlost, rfl⟩
        kept := hkept ⟨fun _ => nofun, fun _ => hbefore.symm, fun _ => hbefore.symm, .inl rfl⟩ }
    rcases hholds.finish hbase ok refused with
      ⟨d', hfinish, hholds', hdurable, -⟩ | ⟨d', hfinish, hholds', hsame⟩
    · rw [hfinish]
      have hnested : units ≠ [] → d'.session.durable = driver.session.durable := by
        intro hne
        simpa [hne] using hdurable
      have hdepth : d'.depth = u.base := by
        rw [hholds'.depth_eq, length_adopt, hbase]
      exact {
        based := hbased.adopt _
        durable := durableAt_adopt hrest hnested u.stmts
        tasks := nofun
        deep := Nat.le_of_eq hholds'.depth_eq.symm
        stopped := fun h => absurd h (by simp [show stopped = false from hstopped])
        standing := InUse.standing (.inr hholds')
        kept := hkept {
          committed := by
            intro hzero _
            have hnil : units = [] := List.length_eq_zero_iff.mp (hbase ▸ hzero)
            simpa [hnil, hbefore] using hdurable
          undone := nofun
          nested := fun hne => by
            rw [hbase] at hne
            exact (hnested (by simpa using hne)).trans hbefore.symm
          depth := .inr hdepth } }
    · rw [hfinish]
      have hafter : d'.session.durable = u.durableAt := hsame.durable.trans hbefore.symm
      exact {
        based := hbased
        durable := fun v hv => (hrest v hv).trans hsame.durable.symm
        tasks := nofun
        deep := Nat.le_of_eq hholds'.depth_eq.symm
        stopped := fun h => absurd h (by simp [show stopped = false from hstopped])
        standing := InUse.standing (.inr hholds')
        kept := hkept ⟨fun _ => nofun, fun _ => hafter, fun _ => hafter,
          .inr (hholds'.depth_eq.trans hbase.symm)⟩ }

theorem Inv.drop (h : Inv c) (runtime : Bool) : Inv (c.step (.drop runtime)) := by
  obtain ⟨driver, units, tasks, stopped, log⟩ := c
  cases units with
  | nil => exact h
  | cons u units =>
    obtain ⟨hbase, hbased⟩ := h.based
    have hrest : ∀ v ∈ units, v.durableAt = driver.session.durable := fun v hv =>
      h.durable v (List.mem_cons_of_mem _ hv)
    have hdeep : units.length ≤ driver.depth := Nat.le_trans (Nat.le_succ _) h.deep
    have htasks : ∀ base ∈ tasks, units.length ≤ base := fun base hmem =>
      Nat.le_trans (Nat.le_succ _) (h.tasks base hmem)
    -- The unit joins the dropped ones, whichever of the two waits for it.
    have hjoin : ∀ {driver' : Driver α} {tasks' : List ℕ} {stopped' : Bool},
        driver'.session = driver.session → driver'.depth = driver.depth →
        (driver.closing = true → driver'.closing = true) →
        (units.length ∈ tasks' ∨ stopped' = true) →
        Standing ⟨driver', units, tasks', stopped', log⟩ := by
      intro driver' tasks' stopped' hsession hdepth' hclosing hwaits
      rcases h.standing with hgone | ⟨dropped, hdepth, -, hstate⟩
      · exact .inl ⟨hsession ▸ hgone.1, hclosing hgone.2⟩
      · refine .inr ⟨dropped ++ [u], ?_, fun _ => hwaits, ?_⟩
        · simp only [List.length_cons] at hdepth
          simp only [List.length_append, List.length_singleton]
          omega
        · rcases hstate with hlost | hholds
          · exact .inl (hsession ▸ hlost)
          · simp only [List.append_assoc, List.singleton_append]
            exact .inr ⟨hsession ▸ hholds.stacked, hdepth'.trans hholds.depth_eq,
              hsession ▸ hholds.alive⟩
    cases runtime with
    | false =>
      exact {
        based := hbased
        durable := hrest
        tasks := htasks
        deep := hdeep
        stopped := fun _ => rfl
        standing := hjoin rfl rfl (fun _ => rfl) (.inr rfl)
        kept := h.kept }
    | true =>
      exact {
        based := hbased
        durable := hrest
        tasks := by
          intro base hmem
          rcases List.mem_append.mp hmem with hmem | hmem
          · exact htasks base hmem
          · exact Nat.le_of_eq ((List.mem_singleton.mp hmem).trans hbase).symm
        deep := hdeep
        stopped := h.stopped
        standing := hjoin rfl rfl id (.inl (by simp [hbase]))
        kept := h.kept }

/-- A task rolls back the units dropped at its depth or above. -/
theorem Inv.task (h : Inv c) (i : ℕ) : Inv (c.step (.task i)) := by
  cases hget : c.tasks[i]? with
  | none => simpa only [Connection.step, hget] using h
  | some base =>
    have hbase : c.units.length ≤ base := h.tasks base (List.mem_of_getElem? hget)
    have htasks : ∀ b ∈ c.tasks.eraseIdx i, c.units.length ≤ b := fun b hb =>
      h.tasks b (List.mem_of_mem_eraseIdx hb)
    have hwaits : base ≠ c.units.length → c.units.length ∈ c.tasks ∨ c.stopped = true →
        c.units.length ∈ c.tasks.eraseIdx i ∨ c.stopped = true := by
      intro hne
      refine Or.imp_left fun hmem => ?_
      obtain ⟨j, hj⟩ := List.mem_iff_getElem?.mp hmem
      refine List.mem_eraseIdx_iff_getElem?.mpr ⟨j, ?_, hj⟩
      rintro rfl
      rw [hget] at hj
      exact hne (Option.some.inj hj)
    simp only [Connection.step, hget]
    by_cases hdepth : c.driver.depth ≤ base
    · rw [rollbackTo_of_le hdepth]
      exact {
        based := h.based
        durable := h.durable
        tasks := htasks
        deep := h.deep
        stopped := h.stopped
        standing := by
          rcases h.standing with hgone | ⟨dropped, hlength, hwait, hstate⟩
          · exact .inl hgone
          · refine .inr ⟨dropped, hlength, fun hne => hwaits ?_ (hwait hne), hstate⟩
            have := List.length_pos_iff.mpr hne
            omega
        kept := h.kept }
    have hmore : base < c.driver.depth := Nat.lt_of_not_le hdepth
    cases hlost : c.driver.session.lost with
    | true =>
      rw [rollbackTo_of_lost hlost hmore]
      exact {
        based := h.based
        durable := h.durable
        tasks := htasks
        deep := h.deep
        stopped := fun _ => rfl
        standing := .inl ⟨hlost, rfl⟩
        kept := h.kept }
    | false =>
      rcases h.standing with hgone | ⟨dropped, hlength, hwait, hstate⟩
      · rw [hlost] at hgone
        exact absurd hgone.1 nofun
      have hholds := hstate.resolve_left (by simp [hlost])
      -- The task's depth splits the dropped units: those above it are rolled back.
      let inner := dropped.take (c.driver.depth - base)
      let outer := dropped.drop (c.driver.depth - base)
      have hsplit : dropped ++ c.units = inner ++ (outer ++ c.units) := by
        rw [← List.append_assoc, List.take_append_drop]
      have hbase' : base = (outer ++ c.units).length := by
        simp only [outer, List.length_append, List.length_drop]
        omega
      rw [hsplit] at hholds
      obtain ⟨hholds', hsame⟩ := hholds.rollbackTo hbase'
      exact {
        based := h.based
        durable := fun u hu => (h.durable u hu).trans hsame.durable.symm
        tasks := htasks
        deep := by
          change _ ≤ (rollbackTo c.driver base).depth
          rw [hholds'.depth_eq, ← hbase']
          exact hbase
        stopped := fun hs => hsame.closing.trans (h.stopped hs)
        standing := by
          refine .inr ⟨outer, ?_, fun hne => hwaits ?_ (hwait ?_), .inr hholds'⟩
          · exact hholds'.depth_eq.trans (List.length_append)
          · have := List.length_pos_iff.mpr hne
            rw [hbase', List.length_append]
            omega
          · rintro rfl
            exact hne List.drop_nil
        kept := h.kept }

theorem Inv.lose (h : Inv c) : Inv (c.step .lose) where
  based := h.based
  durable := h.durable
  tasks := h.tasks
  deep := h.deep
  stopped := h.stopped
  standing := by
    rcases h.standing with hgone | ⟨dropped, hdepth, htask, -⟩
    · exact .inl ⟨rfl, hgone.2⟩
    · exact .inr ⟨dropped, hdepth, htask, .inl rfl⟩
  kept := h.kept

theorem inv_step (c : Connection α) (act : TxAct α) (h : Inv c) (hact : Prompt c act) :
    Inv (c.step act) := by
  cases act with
  | begin => exact h.begin hact.1 hact.2
  | stmt a wrong => exact h.stmt a wrong hact.1 hact.2
  | finish ok refused => exact h.finish ok refused hact.1 hact.2
  | drop runtime => exact h.drop runtime
  | cut ok refused await => exact absurd hact not_false
  | task i => exact h.task i
  | lose => exact h.lose

/-! ## Runs -/

/-- In a run that waits for the rollback of every dropped unit, every finished unit kept its word;
and once no task is left, the depth is that of the units that are open, or the connection is to be
closed. -/
theorem units_keep_their_word (durable : List α) (vars : String → String) (acts : List (TxAct α))
    (hacts : Machine.Along Connection.step Prompt (Connection.idle durable vars) acts) :
    let c := Machine.run Connection.step (Connection.idle durable vars) acts
    (∀ f ∈ c.log, Kept f) ∧
      (c.tasks = [] → c.driver.closing = true ∨ c.driver.depth = c.units.length) := by
  intro c
  have hinv : Inv c :=
    Machine.invariant_along Connection.step inv_step (inv_idle durable vars) hacts
  refine ⟨hinv.kept, fun htasks => ?_⟩
  cases hstopped : c.stopped with
  | true => exact .inl (hinv.stopped hstopped)
  | false =>
    rcases hinv.standing.inUse htasks hstopped with ⟨-, hstate⟩ | hholds
    · exact hstate
    · exact .inr hholds.depth_eq

/-- An inner failure swallowed, and an inner unit dropped and rolled back before the outer one goes
on. -/
theorem units_keep_their_word_swallowed :
    let c := Machine.run Connection.step (Connection.idle ([] : List ℕ) fun _ => "")
      [.begin, .stmt 0 false, .begin, .stmt 1 true, .finish true false, .begin, .stmt 2 false,
        .drop true, .task 0, .stmt 3 false, .finish true false]
    (∀ f ∈ c.log, Kept f) ∧
      (c.tasks = [] → c.driver.closing = true ∨ c.driver.depth = c.units.length) :=
  units_keep_their_word [] (fun _ => "") _
    ⟨⟨rfl, rfl⟩, ⟨rfl, rfl⟩, ⟨rfl, rfl⟩, ⟨rfl, rfl⟩, ⟨rfl, rfl⟩, ⟨rfl, rfl⟩, ⟨rfl, rfl⟩, trivial,
      trivial, ⟨rfl, rfl⟩, ⟨rfl, rfl⟩, trivial⟩

/-- An inner unit is dropped (by a timeout, say) and the outer one returns `Ok` before the task runs:
its statement is not durable, and the transaction stays open with nothing left to end it. -/
theorem dropped_inner_unit_leaves_outer_open :
    let c := Machine.run Connection.step (Connection.idle ([] : List ℕ) fun _ => "")
      [.begin, .stmt 0 false, .begin, .drop true, .finish true false, .task 0]
    c.log.map (fun f => (f.base, f.ok, f.stmts, f.before, f.after)) = [(0, true, [0], [], [])] ∧
      ¬ (∀ f ∈ c.log, Kept f) ∧
      ¬ (c.tasks = [] → c.driver.closing = true ∨ c.driver.depth = c.units.length) := by
  refine ⟨by decide, fun hkept => ?_, by decide⟩
  have hfinished := hkept ⟨0, true, [0], [], [], 1, false⟩ (List.mem_singleton.mpr rfl)
  exact absurd (hfinished.committed rfl rfl) (by decide)

end Backbone.Orm
