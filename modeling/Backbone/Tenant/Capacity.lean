import Backbone.Tenant.Registry

/-!
# The capacity of the registry

An entry is built outside the lock and marked as resolved only later, so that between the phases of
its calls the registry can hold more than `max_tenants` built runtimes. Every one too many has a
caller that still has to trim; once no call is in progress, there is none, and no entry of a failed
build is left.

The order of the evictions is that of the counter that only a successful resolve advances. An entry
starts with the reading its lookup found, so that a runtime nobody has resolved yet counts as old as
the resolve before its lookup, and not as younger than it.

Reference: `backbone-tenant/src/lib.rs`, `touch_and_evict` and `forget_failed`.
-/

namespace Backbone.Tenant

open Machine

variable {ρ : Type} {R : TenantRegistry} {s : World ρ} {h : History} {t : TenantId}
  {e : Sigma fun _ : TenantId => Entry} {i c : ℕ} {m : Entries} {k : Call ρ}

/-! ## No failure is kept, and the bound -/

/-- The call has still to build the cell of the tenant or to drop its entry. -/
def Call.owes (t : TenantId) (c : ℕ) : Call ρ → Prop
  | .waiting t' c' | .building t' c' | .failed t' c' => t' = t ∧ c' = c
  | _ => False

/-- The entry is built, and no call has still to mark it as resolved. -/
def World.Settled (s : World ρ) (e : Sigma fun _ : TenantId => Entry) : Prop :=
  s.initialized e.2.cell = true ∧ ∀ i t r, s.calls i ≠ some (.resolved t e.2.cell r)

/-- Every entry that is not built, and every one too many, has a call that will see to it. -/
structure Accounted (R : TenantRegistry) (s : World ρ) : Prop where
  turn : ∀ i t c, s.calls i = some (.building t c) → s.cells c = ⟨none, some i⟩
  resolved : ∀ i t c r, s.calls i = some (.resolved t c r) → (s.cells c).value = some r
  /-- A cell is new until it is allocated. -/
  fresh : ∀ c, s.allocated ≤ c → s.cells c = .new
  waiting : ∀ i t c, s.calls i = some (.waiting t c) → c < s.allocated
  held : ∀ e ∈ s.entries.entries, e.2.cell < s.allocated
  owed : ∀ e ∈ s.entries.entries, s.initialized e.2.cell = false →
    ∃ i k, s.calls i = some k ∧ k.owes e.1 e.2.cell
  /-- However settled entries are chosen from the registry, there is room for them. -/
  bound : ∀ l, List.Sublist l s.entries.entries → (∀ e ∈ l, s.Settled e) → l.length ≤ R.maxTenants

theorem accounted_new : Accounted R (World.new ρ) where
  turn i t c h := by cases h
  resolved i t c r h := by cases h
  fresh c _ := rfl
  waiting i t c h := by cases h
  held e he := by cases he
  owed e he := by cases he
  bound l hl _ := by
    rw [List.sublist_nil.mp hl]
    exact Nat.zero_le _

/-- With no call in progress every entry is built and the registry is within its capacity. -/
theorem Accounted.idle (h : Accounted R s)
    (hidle : ∀ i k, s.calls i = some k → k.returned = true) :
    (∀ e ∈ s.entries.entries, s.initialized e.2.cell = true) ∧
      s.entries.entries.length ≤ R.maxTenants := by
  have hbuilt : ∀ e ∈ s.entries.entries, s.initialized e.2.cell = true := by
    intro e he
    by_contra hempty
    obtain ⟨i, k, hi, howes⟩ := h.owed e he (Bool.eq_false_iff.mpr hempty)
    have hreturned := hidle i k hi
    cases k with
    | waiting | building | failed | resolved => cases hreturned
    | ok | err => exact howes
  refine ⟨hbuilt, h.bound _ (List.Sublist.refl _) fun e he => ⟨hbuilt e he, fun i t r hi => ?_⟩⟩
  cases hidle i _ hi

/-! ## What keeps the account -/

/-- Entries may go at any time. -/
theorem Accounted.setEntries (h : Accounted R s)
    (hsub : List.Sublist m.entries s.entries.entries) :
    Accounted R { s with entries := m } where
  turn := h.turn
  resolved := h.resolved
  fresh := h.fresh
  waiting := h.waiting
  held e he := h.held e (hsub.subset he)
  owed e he := h.owed e (hsub.subset he)
  bound l hl := h.bound l (hl.trans hsub)

/-- A call that holds no runtime to be marked goes on without touching the cells or the entries. -/
theorem Accounted.setCall (h : Accounted R s)
    (hturn : ∀ t c, k ≠ .building t c) (hwaiting : ∀ t c, k = .waiting t c → c < s.allocated)
    (hresolved : ∀ t c r, k = .resolved t c r → (s.cells c).value = some r)
    (hbefore : ∀ t c r, s.calls i ≠ some (.resolved t c r))
    (howed : ∀ e ∈ s.entries.entries, s.initialized e.2.cell = false →
      ∀ k₀, s.calls i = some k₀ → k₀.owes e.1 e.2.cell → k.owes e.1 e.2.cell) :
    Accounted R (s.setCall i k) where
  turn j t c hj := by
    rw [World.calls_setCall] at hj
    split at hj
    · exact absurd (Option.some.inj hj) (hturn t c)
    · exact h.turn j t c hj
  resolved j t c r hj := by
    rw [World.calls_setCall] at hj
    split at hj
    · exact hresolved t c r (Option.some.inj hj)
    · exact h.resolved j t c r hj
  fresh := h.fresh
  waiting j t c hj := by
    rw [World.calls_setCall] at hj
    split at hj
    · exact hwaiting t c (Option.some.inj hj)
    · exact h.waiting j t c hj
  held := h.held
  owed e he hempty := by
    obtain ⟨j, k₀, hj, hk₀⟩ := h.owed e he hempty
    by_cases hji : j = i
    · subst hji
      exact ⟨j, k, by simp [World.calls_setCall], howed e he hempty k₀ hj hk₀⟩
    · exact ⟨j, k₀, by simpa [World.calls_setCall, hji] using hj, hk₀⟩
  bound l hl hsettled := by
    refine h.bound l hl fun e he => ⟨(hsettled e he).1, fun j t r hj => ?_⟩
    have hji : j ≠ i := by
      rintro rfl
      exact hbefore _ _ _ hj
    exact (hsettled e he).2 j t r (by simpa [World.calls_setCall, hji] using hj)

/-- A call on an empty cell takes the turn, or ends its own. -/
theorem Accounted.setCell (h : Accounted R s) {o : OnceCell ρ}
    (hcell : (s.cells c).value = none) (hturn : ∀ j ∈ (s.cells c).initialiser, j = i)
    (hcall : s.calls i = some (.waiting t c) ∨ s.calls i = some (.building t c))
    (hk : (k = .building t c ∧ o = ⟨none, some i⟩) ∨ (k = .failed t c ∧ o.value = none) ∨
      ∃ r, k = .resolved t c r ∧ o.value = some r) : Accounted R ((s.setCell c o).setCall i k) := by
  have hallocated : c < s.allocated := by
    rcases hcall with hi | hi
    · exact h.waiting i t c hi
    · by_contra hge
      have := (h.turn i t c hi).symm.trans (h.fresh c (Nat.le_of_not_lt hge))
      cases this
  have hother {c' : ℕ} (hne : c' ≠ c) : ((s.setCell c o).setCall i k).cells c' = s.cells c' := by
    simp [World.setCell, World.setCall, hne]
  have hself : ((s.setCell c o).setCall i k).cells c = o := by
    simp [World.setCell, World.setCall]
  have hcalls {j : ℕ} (hji : j ≠ i) : ((s.setCell c o).setCall i k).calls j = s.calls j := by
    simp [World.calls_setCall, hji]
  have hcalli : ((s.setCell c o).setCall i k).calls i = some k := by
    simp [World.calls_setCall]
  constructor
  case turn =>
    intro j t' c' hj
    by_cases hji : j = i
    · subst hji
      rw [hcalli] at hj
      rcases hk with ⟨rfl, rfl⟩ | ⟨rfl, -⟩ | ⟨r, rfl, -⟩
      · cases hj
        exact hself
      · cases hj
      · cases hj
    · rw [hcalls hji] at hj
      have hcells := h.turn j t' c' hj
      have hne : c' ≠ c := by
        rintro rfl
        exact hji (hturn j (by rw [hcells]; rfl))
      rw [hother hne, hcells]
  case resolved =>
    intro j t' c' r hj
    by_cases hji : j = i
    · subst hji
      rw [hcalli] at hj
      rcases hk with ⟨rfl, rfl⟩ | ⟨rfl, -⟩ | ⟨r', rfl, ho⟩
      · cases hj
      · cases hj
      · cases hj
        rw [hself, ho]
    · rw [hcalls hji] at hj
      have hvalue := h.resolved j t' c' r hj
      have hne : c' ≠ c := by
        rintro rfl
        simp [hcell] at hvalue
      rw [hother hne, hvalue]
  case fresh =>
    intro c' hc'
    have hne : c' ≠ c := fun heq => absurd hallocated (not_lt.mpr (heq ▸ hc'))
    rw [hother hne]
    exact h.fresh c' hc'
  case waiting =>
    intro j t' c' hj
    by_cases hji : j = i
    · subst hji
      rw [hcalli] at hj
      rcases hk with ⟨rfl, -⟩ | ⟨rfl, -⟩ | ⟨r, rfl, -⟩ <;> cases hj
    · rw [hcalls hji] at hj
      exact h.waiting j t' c' hj
  case held => exact h.held
  case owed =>
    intro e he hempty
    have hbefore : s.initialized e.2.cell = false := by
      by_cases hec : e.2.cell = c
      · simp [World.initialized, hec, hcell]
      · rwa [World.initialized, hother hec] at hempty
    obtain ⟨j, k₀, hj, howes⟩ := h.owed e he hbefore
    by_cases hji : j = i
    · subst hji
      -- The call owed this very cell, and it still does unless it has built it.
      have hown : t = e.1 ∧ c = e.2.cell := by
        rcases hcall with hi | hi
        all_goals
          rw [hj] at hi
          cases hi
          exact howes
      obtain ⟨rfl, rfl⟩ := hown
      refine ⟨j, k, hcalli, ?_⟩
      rcases hk with ⟨rfl, -⟩ | ⟨rfl, -⟩ | ⟨r, rfl, ho⟩
      · exact ⟨rfl, rfl⟩
      · exact ⟨rfl, rfl⟩
      · simp [World.initialized, hself, ho] at hempty
    · exact ⟨j, k₀, by rw [hcalls hji, hj], howes⟩
  case bound =>
    intro l hl hsettled
    refine h.bound l hl fun e he => ?_
    obtain ⟨hbuilt, hmarked⟩ := hsettled e he
    have hne : e.2.cell ≠ c := by
      rintro rfl
      rw [World.initialized, hself] at hbuilt
      rcases hk with ⟨-, rfl⟩ | ⟨-, ho⟩ | ⟨r, rfl, -⟩
      · simp at hbuilt
      · simp [ho] at hbuilt
      · exact hmarked i t r hcalli
    refine ⟨by rwa [World.initialized, hother hne] at hbuilt, fun j t' r hj => ?_⟩
    have hji : j ≠ i := by
      rintro rfl
      rcases hcall with hi | hi <;> rw [hj] at hi <;> cases hi
    exact hmarked j t' r (by rw [hcalls hji, hj])

theorem Accounted.getOrBuild (h : Accounted R s) (hi : s.calls i = none) (t : TenantId) :
    Accounted R (s.getOrBuild i t) := by
  unfold World.getOrBuild
  split
  · rename_i e he
    have hmem : (⟨t, e⟩ : Sigma fun _ : TenantId => Entry) ∈ s.entries.entries :=
      AList.mem_lookup_iff.mp he
    refine h.setCall (by simp) ?_ (by simp) (by simp [hi]) (by simp [hi])
    rintro t' c heq
    cases heq
    exact h.held _ hmem
  · -- The new entry is not built, and this call waits for it.
    have hnew : s.initialized s.allocated = false := by
      simp [World.initialized, h.fresh s.allocated le_rfl, OnceCell.new]
    have hold {e : Sigma fun _ : TenantId => Entry}
        (he : e ∈ List.kerase t s.entries.entries) : e ∈ s.entries.entries :=
      (List.kerase_sublist t _).subset he
    have hcalls {j : ℕ} {k : Call ρ} (hj : s.calls j = some k) (k' : Call ρ) :
        (s.setCall i k').calls j = some k := by
      have hji : j ≠ i := by
        rintro rfl
        simp [hi] at hj
      rw [World.calls_setCall, if_neg hji, hj]
    constructor
    · intro j t' c hj
      rw [World.calls_setCall] at hj
      split at hj
      · cases hj
      · exact h.turn j t' c hj
    · intro j t' c r hj
      rw [World.calls_setCall] at hj
      split at hj
      · cases hj
      · exact h.resolved j t' c r hj
    · intro c hc
      exact h.fresh c (Nat.le_of_succ_le hc)
    · intro j t' c hj
      rw [World.calls_setCall] at hj
      split at hj
      · cases hj
        exact Nat.lt_succ_self _
      · exact (h.waiting j t' c hj).trans (Nat.lt_succ_self _)
    · intro e he
      rcases List.mem_cons.mp he with rfl | he
      · exact Nat.lt_succ_self _
      · exact (h.held e (hold he)).trans (Nat.lt_succ_self _)
    · intro e he hempty
      rcases List.mem_cons.mp he with rfl | he
      · exact ⟨i, .waiting t s.allocated, by simp [World.calls_setCall], rfl, rfl⟩
      · obtain ⟨j, k, hj, howes⟩ := h.owed e (hold he) hempty
        exact ⟨j, k, hcalls hj _, howes⟩
    · intro l hl hsettled
      rcases List.sublist_cons_iff.mp hl with hl | ⟨l', rfl, -⟩
      · refine h.bound l (hl.trans (List.kerase_sublist t _)) fun e he => ?_
        refine ⟨(hsettled e he).1, fun j t' r hj => (hsettled e he).2 j t' r (hcalls hj _)⟩
      · have hbuilt : s.initialized s.allocated = true := (hsettled _ List.mem_cons_self).1
        rw [hnew] at hbuilt
        cases hbuilt

theorem mem_trim {maxTenants : ℕ} {built : ℕ → Bool} {tenant : TenantId}
    {rank : TenantId → ℕ} (he : e ∈ (trim maxTenants built tenant rank m).entries) :
    e ∈ m.entries := by
  have hmem : e.1 ∈ trim maxTenants built tenant rank m := List.mem_keys_of_mem he
  rw [← AList.mem_lookup_iff] at he ⊢
  rwa [← lookup_trim_of_mem hmem]

/-- An entry behind a resolve of the tenant `t` is one of before, or that of `t`, with the cell it had
or, put back, the cell of the resolve. -/
theorem mem_touched (he : e ∈ (s.touched t c).entries) :
    (e.1 ≠ t ∧ e ∈ s.entries.entries) ∨ (e.1 = t ∧ e.2.last = s.tick + 1 ∧
      (e.2.cell = c ∨ ∃ e₀ ∈ s.entries.entries, e₀.1 = t ∧ e₀.2.cell = e.2.cell)) := by
  rcases List.mem_cons.mp he with rfl | he
  · refine .inr ⟨rfl, rfl, ?_⟩
    cases hlookup : s.entries.lookup t with
    | none => exact .inl rfl
    | some e₀ => exact .inr ⟨⟨t, e₀⟩, AList.mem_lookup_iff.mp hlookup, rfl, rfl⟩
  · refine .inl ⟨?_, (List.kerase_sublist t _).subset he⟩
    rintro rfl
    exact List.notMem_keys_kerase _ s.entries.nodupKeys (List.mem_keys_of_mem he)

theorem Accounted.touchAndEvict (h : Accounted R s) {r : ρ}
    (hi : s.calls i = some (.resolved t c r)) (rank : TenantId → ℕ) :
    Accounted R (s.touchAndEvict R.maxTenants i t c r rank) := by
  have hvalue := h.resolved i t c r hi
  have hallocated : c < s.allocated := by
    by_contra hge
    simp [h.fresh c (Nat.le_of_not_lt hge), OnceCell.new] at hvalue
  constructor
  case turn =>
    intro j t' c' hj
    simp only [World.touchAndEvict, World.calls_setCall] at hj
    split at hj
    · cases hj
    · exact h.turn j t' c' hj
  case resolved =>
    intro j t' c' r' hj
    simp only [World.touchAndEvict, World.calls_setCall] at hj
    split at hj
    · cases hj
    · exact h.resolved j t' c' r' hj
  case fresh => exact h.fresh
  case waiting =>
    intro j t' c' hj
    simp only [World.touchAndEvict, World.calls_setCall] at hj
    split at hj
    · cases hj
    · exact h.waiting j t' c' hj
  case held =>
    intro e he
    rcases mem_touched (mem_trim he) with ⟨-, he⟩ | ⟨-, -, hcell | ⟨e₀, he₀, -, hcell⟩⟩
    · exact h.held e he
    · rwa [hcell]
    · rw [← hcell]
      exact h.held e₀ he₀
  case owed =>
    intro e he hempty
    have howed : ∃ j k, s.calls j = some k ∧ k.owes e.1 e.2.cell := by
      rcases mem_touched (mem_trim he) with ⟨-, he⟩ | ⟨ht, -, hcell | ⟨e₀, he₀, ht₀, hcell⟩⟩
      · exact h.owed e he hempty
      · -- The cell of the resolve is built.
        rw [hcell] at hempty
        have hbuilt : s.initialized c = true := by
          simp [World.initialized, hvalue]
        exact absurd (hbuilt.symm.trans hempty) (by simp)
      · rw [← hcell] at hempty ⊢
        rw [ht, ← ht₀]
        exact h.owed e₀ he₀ hempty
    obtain ⟨j, k, hj, howes⟩ := howed
    have hji : j ≠ i := by
      rintro rfl
      rw [hi] at hj
      cases hj
      exact howes
    exact ⟨j, k, by simpa [World.touchAndEvict, World.calls_setCall, hji] using hj, howes⟩
  case bound =>
    intro l hl hsettled
    have hcount : l.countP (fun e => s.initialized e.2.cell) = l.length :=
      List.countP_eq_length.mpr fun e he => (hsettled e he).1
    calc l.length = l.countP (fun e => s.initialized e.2.cell) := hcount.symm
      _ ≤ resident s.initialized (trim R.maxTenants s.initialized t rank (s.touched t c)) :=
        hl.countP_le
      _ ≤ R.maxTenants := resident_trim_le R.pos _

theorem Accounted.forgetFailed (h : Accounted R s)
    (hi : s.calls i = some (.failed t c)) : Accounted R (s.forgetFailed i t c) := by
  unfold World.forgetFailed
  split
  · rename_i hours
    refine (h.setEntries (List.kerase_sublist t _)).setCall (by simp) (by simp) (by simp)
      (by simp [hi]) ?_
    rintro e he - k₀ hk₀ howes
    -- The call owed the entry it drops, and no other.
    rw [hi] at hk₀
    cases hk₀
    obtain ⟨rfl, rfl⟩ := howes
    exact absurd (List.mem_keys_of_mem he) (List.notMem_keys_kerase _ s.entries.nodupKeys)
  · rename_i hours
    refine h.setCall (by simp) (by simp) (by simp) (by simp [hi]) ?_
    rintro e he hempty k₀ hk₀ howes
    rw [hi] at hk₀
    cases hk₀
    obtain ⟨rfl, rfl⟩ := howes
    -- The entry would be the one to drop.
    refine absurd ?_ hours
    simp [World.ours, Option.mem_def.mp (AList.mem_lookup_iff.mpr he), hempty]

theorem Accounted.step (h : Accounted R s) (a : Act ρ) : Accounted R (s.step R a) := by
  cases a with
  | getOrBuild i t =>
    simp only [World.step]
    split
    · rename_i hi
      exact h.getOrBuild hi t
    · exact h
  | turn i =>
    simp only [World.step]
    split
    · rename_i t c hi
      unfold World.turn
      split
      · rename_i r hr
        refine h.setCall (by simp) (by simp) (by simp [hr]) (by simp [hi]) ?_
        rintro e he hempty k₀ hk₀ howes
        rw [hi] at hk₀
        cases hk₀
        obtain ⟨rfl, rfl⟩ := howes
        simp [World.initialized, hr] at hempty
      · rename_i hempty
        split
        · exact h
        · rename_i hidle
          exact h.setCell hempty (by simp [hidle]) (.inl hi) (.inl ⟨rfl, rfl⟩)
    · exact h
  | build i outcome =>
    simp only [World.step]
    split
    · rename_i t c hi
      have hturn := h.turn i t c hi
      cases outcome with
      | some r =>
        exact h.setCell (by simp [hturn]) (by simp [hturn, eq_comm]) (.inr hi)
          (.inr (.inr ⟨r, rfl, rfl⟩))
      | none =>
        exact h.setCell (by simp [hturn]) (by simp [hturn, eq_comm]) (.inr hi)
          (.inr (.inl ⟨rfl, rfl⟩))
    · exact h
  | forgetFailed i =>
    simp only [World.step]
    split
    · rename_i t c hi
      exact h.forgetFailed hi
    · exact h
  | touchAndEvict i rank =>
    simp only [World.step]
    split
    · rename_i t c r hi
      exact h.touchAndEvict hi rank
    · exact h
  | evict t => exact h.setEntries (List.kerase_sublist t _)
  | evictAll => exact h.setEntries (List.nil_sublist _)
  | evictIdle keep => exact h.setEntries List.filter_sublist

/-! ## The order of the evictions -/

/-- What the registry does not keep: how many steps there were, at which of them requests were
resolved, and at which of them each tenant was resolved last or, when it has not been since, its entry
was made by a lookup. -/
structure History where
  now : ℕ
  resolves : List ℕ
  stamp : TenantId → ℕ

/-- The history of a step that meets the world `s`. -/
def History.note (h : History) (s : World ρ) (a : Act ρ) (_ : World ρ) : History :=
  match a with
  | .getOrBuild i t =>
    if (s.calls i).isNone ∧ (s.entries.lookup t).isNone then
      { h with now := h.now + 1, stamp := Function.update h.stamp t (h.now + 1) }
    else { h with now := h.now + 1 }
  | .touchAndEvict i _ =>
    match s.calls i with
    | some (.resolved t _ _) =>
      ⟨h.now + 1, (h.now + 1) :: h.resolves, Function.update h.stamp t (h.now + 1)⟩
    | _ => { h with now := h.now + 1 }
  | _ => { h with now := h.now + 1 }

/-- Some request is resolved behind the last resolve of `u` and no later than that of `v`. -/
def History.Later (h : History) (u v : TenantId) : Prop :=
  ∃ n ∈ h.resolves, h.stamp u < n ∧ n ≤ h.stamp v

instance (h : History) (u v : TenantId) : Decidable (h.Later u v) := by
  unfold History.Later
  infer_instance

/-- How many requests were resolved up to the step `n`. -/
def resolvesBy (resolves : List ℕ) (n : ℕ) : ℕ := resolves.countP fun m => decide (m ≤ n)

/-- The access ticks count the resolves up to the stamps. -/
structure Stamped (s : World ρ) (h : History) : Prop where
  tick : s.tick = h.resolves.length
  past : ∀ n ∈ h.resolves, n ≤ h.now
  last : ∀ e ∈ s.entries.entries, h.stamp e.1 ≤ h.now ∧
    e.2.last = resolvesBy h.resolves (h.stamp e.1)

theorem stamped_new : Stamped (World.new ρ) ⟨0, [], fun _ => 0⟩ where
  tick := rfl
  past n h := by cases h
  last e he := by cases he

section

variable (hs : Stamped s h)
include hs

/-- A tenant with the lesser tick was not resolved later. -/
theorem Stamped.not_later {e' : Sigma fun _ : TenantId => Entry}
    (he : e ∈ s.entries.entries) (he' : e' ∈ s.entries.entries) (hle : e.2.last ≤ e'.2.last) :
    ¬ h.Later e'.1 e.1 := by
  rintro ⟨n, hn, hlt, hle'⟩
  rw [(hs.last e he).2, (hs.last e' he').2, resolvesBy, resolvesBy, List.countP_eq_length_filter,
    List.countP_eq_length_filter] at hle
  have hsub : List.Sublist (h.resolves.filter fun n => decide (n ≤ h.stamp e'.1))
      (h.resolves.filter fun n => decide (n ≤ h.stamp e.1)) := by
    refine List.monotone_filter_right _ fun m hm => ?_
    have := of_decide_eq_true hm
    exact decide_eq_true (by omega)
  have hmem : n ∈ h.resolves.filter fun n => decide (n ≤ h.stamp e.1) :=
    List.mem_filter.mpr ⟨hn, decide_eq_true hle'⟩
  rw [← hsub.eq_of_length_le hle] at hmem
  have := of_decide_eq_true (List.mem_filter.mp hmem).2
  omega

/-- A step that resolves nothing, and makes no entry. -/
theorem Stamped.pass {s' : World ρ} (htick : s'.tick = s.tick)
    (hsub : ∀ e ∈ s'.entries.entries, e ∈ s.entries.entries) :
    Stamped s' { h with now := h.now + 1 } where
  tick := htick.trans hs.tick
  past n hn := (hs.past n hn).trans (Nat.le_succ _)
  last e he := ⟨(hs.last e (hsub e he)).1.trans (Nat.le_succ _), (hs.last e (hsub e he)).2⟩

/-- Every resolve there was is in the past, so that a stamp set now counts them all. -/
theorem Stamped.resolvesBy_now : resolvesBy h.resolves (h.now + 1) = h.resolves.length := by
  refine List.countP_eq_length.mpr fun n hn => ?_
  exact decide_eq_true ((hs.past n hn).trans (Nat.le_succ _))

theorem Stamped.getOrBuild (i : ℕ) (t : TenantId)
    (hnone : s.entries.lookup t = none) :
    Stamped (s.getOrBuild i t)
      { h with now := h.now + 1, stamp := Function.update h.stamp t (h.now + 1) } := by
  unfold World.getOrBuild
  rw [hnone]
  constructor
  · exact hs.tick
  · intro n hn
    exact (hs.past n hn).trans (Nat.le_succ _)
  · intro e he
    rcases List.mem_cons.mp he with rfl | he
    · dsimp only
      rw [Function.update_self, hs.resolvesBy_now, ← hs.tick]
      exact ⟨le_rfl, rfl⟩
    · have hne : e.1 ≠ t := by
        rintro rfl
        exact List.notMem_keys_kerase _ s.entries.nodupKeys (List.mem_keys_of_mem he)
      obtain ⟨hnow, hlast⟩ := hs.last e ((List.kerase_sublist t _).subset he)
      dsimp only
      rw [Function.update_of_ne hne]
      exact ⟨hnow.trans (Nat.le_succ _), hlast⟩

theorem Stamped.touchAndEvict (maxTenants i : ℕ) (t : TenantId) (c : ℕ) (r : ρ)
    (rank : TenantId → ℕ) :
    Stamped (s.touchAndEvict maxTenants i t c r rank)
      ⟨h.now + 1, (h.now + 1) :: h.resolves, Function.update h.stamp t (h.now + 1)⟩ := by
  constructor
  · show s.tick + 1 = h.resolves.length + 1
    rw [hs.tick]
  · intro n hn
    rcases List.mem_cons.mp hn with rfl | hn
    · exact le_rfl
    · exact (hs.past n hn).trans (Nat.le_succ _)
  · intro e he
    rcases mem_touched (mem_trim he) with ⟨hne, he⟩ | ⟨ht, hlast, -⟩
    · obtain ⟨hnow, hlast⟩ := hs.last e he
      dsimp only
      rw [Function.update_of_ne hne, resolvesBy, List.countP_cons_of_neg (by simpa using by omega)]
      exact ⟨hnow.trans (Nat.le_succ _), hlast⟩
    · dsimp only
      rw [ht, Function.update_self, resolvesBy, List.countP_cons_of_pos (by simp)]
      have := hs.resolvesBy_now
      rw [resolvesBy] at this
      rw [this, ← hs.tick]
      exact ⟨le_rfl, hlast⟩

theorem Stamped.step (a : Act ρ) : Stamped (s.step R a) (h.note s a (s.step R a)) := by
  cases a with
  | getOrBuild i t =>
    simp only [World.step, History.note]
    split
    · rename_i hi
      cases hlookup : s.entries.lookup t with
      | none =>
        rw [if_pos (by simp [hi])]
        exact hs.getOrBuild i t hlookup
      | some e =>
        rw [if_neg (by simp)]
        refine hs.pass ?_ ?_ <;> simp [World.getOrBuild, hlookup, World.setCall]
    · rename_i hi
      rw [if_neg (by simp [hi])]
      exact hs.pass rfl fun e he => he
  | turn i =>
    refine hs.pass ?_ ?_ <;> simp only [World.step]
    · split
      · unfold World.turn
        repeat' split
        all_goals rfl
      · rfl
    · split
      · unfold World.turn
        repeat' split
        all_goals exact fun e he => he
      · exact fun e he => he
  | build i outcome =>
    refine hs.pass ?_ ?_ <;> simp only [World.step]
    · split
      · cases outcome <;> rfl
      · rfl
    · split
      · cases outcome <;> exact fun e he => he
      · exact fun e he => he
  | forgetFailed i =>
    refine hs.pass ?_ ?_ <;> simp only [World.step]
    · split <;> rfl
    · split
      · unfold World.forgetFailed
        split
        · exact fun e he => (List.kerase_sublist _ _).subset he
        · exact fun e he => he
      · exact fun e he => he
  | touchAndEvict i rank =>
    cases hi : s.calls i with
    | none =>
      simp only [World.step, History.note, hi]
      exact hs.pass rfl fun e he => he
    | some k =>
      cases k with
      | resolved t c r =>
        simp only [World.step, History.note, hi]
        exact hs.touchAndEvict _ _ _ _ _ _
      | _ =>
        simp only [World.step, History.note, hi]
        exact hs.pass rfl fun e he => he
  | evict t => exact hs.pass rfl fun e he => (List.kerase_sublist _ _).subset he
  | evictAll => exact hs.pass rfl fun e he => absurd he List.not_mem_nil
  | evictIdle keep => exact hs.pass rfl fun e he => List.filter_sublist.subset he

end

/-! ## Who causes an eviction -/

/-- The registry without the entries of builds that failed or still run. -/
def builtOnly (built : ℕ → Bool) (m : Entries) : Entries :=
  ⟨m.entries.filter fun e => built e.2.cell, m.nodupKeys.sublist List.filter_sublist⟩

section BuiltOnly

variable {maxTenants : ℕ} {built : ℕ → Bool} {tenant : TenantId} {rank : TenantId → ℕ}

theorem kerase_eq_filter {l : List (Sigma fun _ : TenantId => Entry)} (h : l.NodupKeys)
    (k : TenantId) : List.kerase k l = l.filter fun e => e.1 != k := by
  induction l with
  | nil => rfl
  | cons e l ih =>
    obtain ⟨hnot, hl⟩ := List.nodupKeys_cons.mp h
    by_cases hk : k = e.1
    · subst hk
      rw [List.kerase_cons_eq rfl, List.filter_cons_of_neg (by simp)]
      refine (List.filter_eq_self.mpr fun e' he' => ?_).symm
      have : e'.1 ≠ e.1 := fun heq => hnot (heq ▸ List.mem_keys_of_mem he')
      simpa using this
    · rw [List.kerase_cons_ne hk, ih hl, List.filter_cons_of_pos (by simpa using Ne.symm hk)]

variable (m : Entries) {passes : ℕ} {m : Entries}

theorem resident_builtOnly : resident built (builtOnly built m) = resident built m := by
  simp [resident, builtOnly, List.countP_filter]

theorem victim_builtOnly :
    victim built tenant rank (builtOnly built m) = victim built tenant rank m := by
  have hcandidates : candidates built tenant (builtOnly built m) = candidates built tenant m := by
    simp [candidates, builtOnly, List.filter_filter]
  rw [victim, victim, hcandidates]

theorem builtOnly_erase (k : TenantId) :
    (builtOnly built m).erase k = builtOnly built (m.erase k) := by
  refine AList.ext ?_
  show List.kerase k (m.entries.filter fun e => built e.2.cell) =
    (List.kerase k m.entries).filter fun e => built e.2.cell
  rw [kerase_eq_filter m.nodupKeys, List.filter_comm]
  exact kerase_eq_filter (builtOnly built m).nodupKeys k

/-- The same tenants are evicted with the entries of failed and of running builds as without them. -/
theorem evictions_builtOnly {passes' : ℕ} (h : resident built m ≤ passes)
    (h' : resident built m ≤ passes') :
    (evictions maxTenants built tenant rank passes m).map (·.2) =
      (evictions maxTenants built tenant rank passes' (builtOnly built m)).map (·.2) := by
  induction passes generalizing passes' m with
  | zero =>
    cases passes' with
    | zero => rfl
    | succ passes' =>
      rw [evictions, evictions, if_pos]
      rw [resident_builtOnly, Nat.le_zero.mp h]
      exact Nat.zero_le _
  | succ passes ih =>
    by_cases hover : resident built m ≤ maxTenants
    · rw [evictions, if_pos hover]
      cases passes' with
      | zero => rfl
      | succ passes' => rw [evictions, if_pos (by rwa [resident_builtOnly])]
    · cases passes' with
      | zero => exact absurd (h'.trans (Nat.zero_le _)) hover
      | succ passes' =>
        rw [evictions, evictions, if_neg hover, if_neg (by rwa [resident_builtOnly]),
          victim_builtOnly]
        cases hvictim : victim built tenant rank m with
        | none => rfl
        | some id =>
          obtain ⟨e, he, rfl, -⟩ := victim_spec hvictim
          obtain ⟨hmem, -, hbuilt⟩ := mem_candidates.mp he
          have hless := resident_erase_lt hmem hbuilt
          simp only [List.map_cons, builtOnly_erase]
          exact congrArg (e.1 :: ·) (ih (by omega) (by omega))

/-- The maps the loop finds are parts of the map it starts from. -/
theorem sublist_of_mem_evictions {m' : Entries} {id : TenantId}
    (h : (m', id) ∈ evictions maxTenants built tenant rank passes m) :
    List.Sublist m'.entries m.entries := by
  induction passes generalizing m with
  | zero => cases h
  | succ passes ih =>
    unfold evictions at h
    split at h
    · cases h
    · split at h
      · rcases List.mem_cons.mp h with heq | hrest
        · cases heq
          exact List.Sublist.refl _
        · exact (ih hrest).trans (List.kerase_sublist _ _)
      · cases h

end BuiltOnly

/-! ## The registry over its runs -/

/-- With no call in progress every entry is built and there are at most `max_tenants` of them. -/
def Bounded (R : TenantRegistry) (s : World ρ) : Prop :=
  (∀ i k, s.calls i = some k → k.returned = true) →
    (∀ e ∈ s.entries.entries, s.initialized e.2.cell = true) ∧
      s.entries.entries.length ≤ R.maxTenants

/-- Every eviction of a resolve finds the registry over its capacity and takes a built tenant, not the
resolved one, that was not resolved later than another one. -/
def EvictsOldest (R : TenantRegistry) (s : World ρ) (h : History) : Prop :=
  ∀ i t c r rank, s.calls i = some (.resolved t c r) →
    ∀ ev ∈ evictions R.maxTenants s.initialized t rank (s.touched t c).entries.length
      (s.touched t c),
    R.maxTenants < resident s.initialized ev.1 ∧
      ∃ e ∈ candidates s.initialized t ev.1, e.1 = ev.2 ∧
        ∀ e' ∈ candidates s.initialized t ev.1, ¬ h.Later e'.1 e.1

/-- No build evicts another tenant: a call that has not resolved its tenant leaves the entries of the
others, and one that has evicts those it would evict without the entries that are not built. -/
def BuildsEvictNone (R : TenantRegistry) (s : World ρ) : Prop :=
  (∀ i t u, u ≠ t → (s.step R (.getOrBuild i t)).entries.lookup u = s.entries.lookup u) ∧
  (∀ i, (s.step R (.turn i)).entries = s.entries) ∧
  (∀ i outcome, (s.step R (.build i outcome)).entries = s.entries) ∧
  (∀ i t c u, s.calls i = some (.failed t c) → u ≠ t →
    (s.step R (.forgetFailed i)).entries.lookup u = s.entries.lookup u) ∧
  ∀ t c rank, (evictions R.maxTenants s.initialized t rank (s.touched t c).entries.length
      (s.touched t c)).map (·.2) =
    (evictions R.maxTenants s.initialized t rank
      (builtOnly s.initialized (s.touched t c)).entries.length
      (builtOnly s.initialized (s.touched t c))).map (·.2)

theorem Stamped.evictsOldest (hs : Stamped s h) : EvictsOldest R s h := by
  rintro i t c r rank - ⟨m', id⟩ hev
  obtain ⟨hover, hvictim⟩ := of_mem_evictions hev
  obtain ⟨e, he, rfl, hleast⟩ := victim_spec hvictim
  refine ⟨hover, e, he, rfl, fun e' he' => ?_⟩
  -- The other tenants have the entries they had before the resolve.
  have hbefore {e : Sigma fun _ : TenantId => Entry} (he : e ∈ candidates s.initialized t m') :
      e ∈ s.entries.entries := by
    obtain ⟨hmem, hne, -⟩ := mem_candidates.mp he
    rcases mem_touched ((sublist_of_mem_evictions hev).subset hmem) with ⟨-, h⟩ | ⟨ht, -⟩
    · exact h
    · exact absurd ht hne
  exact hs.not_later (hbefore he) (hbefore he') (hleast e' he')

variable (R : TenantRegistry) (acts : List (Act ρ))

theorem buildsEvictNone (s : World ρ) : BuildsEvictNone R s := by
  refine ⟨?_, ?_, ?_, ?_, ?_⟩
  · intro i t u hne
    simp only [World.step]
    split
    · unfold World.getOrBuild
      split
      · rfl
      · exact AList.lookup_insert_ne hne
    · rfl
  · intro i
    simp only [World.step]
    split
    · unfold World.turn
      repeat' split
      all_goals rfl
    · rfl
  · intro i outcome
    simp only [World.step]
    split
    · cases outcome <;> rfl
    · rfl
  · intro i t c u hi hne
    simp only [World.step, hi, World.forgetFailed]
    split
    · exact AList.lookup_erase_ne hne
    · rfl
  · intro t c rank
    refine evictions_builtOnly List.countP_le_length ?_
    rw [resident, List.countP_eq_length_filter]
    exact le_rfl

/-- Where the calls lead that the registry meets, with their history. -/
def reached (R : TenantRegistry) (acts : List (Act ρ)) : World ρ × History :=
  run (withHistory (World.step R) History.note) (World.new ρ, ⟨0, [], fun _ => 0⟩) acts

theorem reached_fst : (reached R acts).1 = run (World.step R) (World.new ρ) acts :=
  run_withHistory_fst _ _ _ acts

theorem accounted_reached : Accounted R (reached R acts).1 := by
  rw [reached_fst]
  exact invariant_run _ (fun s a h => h.step a) acts accounted_new

theorem stamped_reached : Stamped (reached R acts).1 (reached R acts).2 :=
  invariant_run (I := fun p : World ρ × History => Stamped p.1 p.2) _ (fun _ a h => h.step a) acts
    stamped_new

/-- Among any calls the registry is bounded and keeps no failure, evicts what was resolved least
recently, and evicts nothing for a build that has not succeeded. -/
theorem bounded_and_keeps_no_failure (R : TenantRegistry) (acts : List (Act ρ)) :
    Bounded R (reached R acts).1 ∧ EvictsOldest R (reached R acts).1 (reached R acts).2 ∧
      BuildsEvictNone R (reached R acts).1 :=
  ⟨(accounted_reached R acts).idle, (stamped_reached R acts).evictsOldest, buildsEvictNone R _⟩

def twoSeats : TenantRegistry := ⟨2, by decide⟩

/-- Two tenants, the second looked up after the first was resolved, and not resolved itself when a
third one is. -/
def neverTouched : List (Act ℕ) :=
  [.getOrBuild 0 "acme", .turn 0, .build 0 (some 1), .touchAndEvict 0 (fun _ => 0),
    .getOrBuild 1 "globex", .turn 1, .build 1 (some 2),
    .getOrBuild 2 "initech", .turn 2, .build 2 (some 3)]

/-- The eviction takes the tenant that was looked up after the other one was resolved, when the map
happens to yield it first. -/
theorem evicts_younger :
    (reached twoSeats neverTouched).1.calls 2 = some (.resolved "initech" 2 3) ∧
      ∃ ev ∈ evictions twoSeats.maxTenants (reached twoSeats neverTouched).1.initialized "initech"
          (fun t => if t = "globex" then 0 else 1)
          ((reached twoSeats neverTouched).1.touched "initech" 2).entries.length
          ((reached twoSeats neverTouched).1.touched "initech" 2),
        ev.2 = "globex" ∧
          ∃ e ∈ candidates (reached twoSeats neverTouched).1.initialized "initech" ev.1,
            (reached twoSeats neverTouched).2.stamp e.1 <
              (reached twoSeats neverTouched).2.stamp ev.2 := by
  decide +kernel

end Backbone.Tenant
