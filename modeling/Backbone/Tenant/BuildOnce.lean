import Backbone.Tenant.Registry

/-!
# One build for each tenant

Concurrent first requests for a tenant share one `OnceCell`. A failed build hands the turn to the next
waiter on the cell, while the failed caller drops the cell's entry: when it does so before the waiters
are done, newcomers start on a fresh cell, and two builds of the tenant overlap. Without that, and as
long as the tenant is not evicted, it is built by one call at a time and every request that succeeds
is given the same runtime.

Reference: `backbone-tenant/src/lib.rs`, `get_or_build` and `forget_failed`.
-/

namespace Backbone.Tenant

open Machine

variable {ρ : Type} {R : TenantRegistry} {t : TenantId} {s : World ρ}
  {i : ℕ} {k : Call ρ} {a : Act ρ}

/-- The call waits for the cell of the tenant or initialises it. -/
def Call.mayBuild (t : TenantId) (c : ℕ) : Call ρ → Prop
  | .waiting t' c' | .building t' c' => t' = t ∧ c' = c
  | _ => False

/-- The tenant loses its entry to an eviction, by hand or for capacity. -/
def Evicts (R : TenantRegistry) (t : TenantId) (s : World ρ) (a : Act ρ) : Prop :=
  t ∈ s.entries ∧ t ∉ (s.step R a).entries ∧ ∀ i, a ≠ .forgetFailed i

/-- A failed caller drops the tenant's entry while another call still waits for its cell or
initialises it. -/
def Orphans (t : TenantId) (s : World ρ) (a : Act ρ) : Prop :=
  ∃ i c, a = .forgetFailed i ∧ s.calls i = some (.failed t c) ∧ s.ours t c ∧
    ∃ j k, s.calls j = some k ∧ k.mayBuild t c

/-- At most one factory build of the tenant is in progress. -/
def OneBuild (t : TenantId) (s : World ρ) : Prop :=
  ∀ i j c c', s.calls i = some (.building t c) → s.calls j = some (.building t c') → i = j

/-- The call was given the runtime `r` for the tenant. -/
def Call.given (t : TenantId) (r : ρ) : Call ρ → Prop
  | .resolved t' _ r' | .ok t' r' => t' = t ∧ r' = r
  | _ => False

/-- All requests for the tenant that succeeded were given the same runtime. -/
def OneRuntime (t : TenantId) (s : World ρ) : Prop :=
  ∀ i j k k' r r', s.calls i = some k → s.calls j = some k' → k.given t r → k'.given t r' → r = r'

/-! ## The invariant -/

/-- The tenant's entry holds the cell `c`. -/
def World.HasCell (s : World ρ) (t : TenantId) (c : ℕ) : Prop :=
  ∃ e ∈ s.entries.lookup t, e.cell = c

theorem World.HasCell.eq {c c' : ℕ} (h : s.HasCell t c) (h' : s.HasCell t c') : c = c' := by
  obtain ⟨e, he, rfl⟩ := h
  obtain ⟨e', he', rfl⟩ := h'
  rw [Option.mem_unique he he']

/-- Every call that is on a cell of the tenant is on the one its entry holds. -/
structure Shared (t : TenantId) (s : World ρ) : Prop where
  /-- The call that initialises a cell, for whichever tenant, has the turn. -/
  turn : ∀ i t' c, s.calls i = some (.building t' c) → s.cells c = ⟨none, some i⟩
  held : ∀ i k c, s.calls i = some k → k.mayBuild t c → s.HasCell t c
  resolved : ∀ i c r, s.calls i = some (.resolved t c r) →
    s.HasCell t c ∧ (s.cells c).value = some r
  answered : ∀ i r, s.calls i = some (.ok t r) → ∃ c, s.HasCell t c ∧ (s.cells c).value = some r

theorem Shared.oneBuild (h : Shared t s) : OneBuild t s := by
  intro i j c c' hi hj
  obtain rfl : c = c' := (h.held i _ c hi ⟨rfl, rfl⟩).eq (h.held j _ c' hj ⟨rfl, rfl⟩)
  have := (h.turn i t c hi).symm.trans (h.turn j t c hj)
  simpa using this

/-- What a call was given is in the cell of the entry. -/
theorem Shared.given (h : Shared t s) {r : ρ} (hi : s.calls i = some k)
    (hk : k.given t r) : ∃ c, s.HasCell t c ∧ (s.cells c).value = some r := by
  cases k with
  | resolved t' c r' =>
    obtain ⟨rfl, rfl⟩ := hk
    exact ⟨c, h.resolved i c _ hi⟩
  | ok t' r' =>
    obtain ⟨rfl, rfl⟩ := hk
    exact h.answered i _ hi
  | waiting | building | failed | err => cases hk

theorem Shared.oneRuntime (h : Shared t s) : OneRuntime t s := by
  intro i j k k' r r' hi hj hk hk'
  obtain ⟨c, hc, hr⟩ := h.given hi hk
  obtain ⟨c', hc', hr'⟩ := h.given hj hk'
  rw [hc.eq hc', hr'] at hr
  exact (Option.some.inj hr).symm

theorem shared_new : Shared t (World.new ρ) where
  turn i t' c h := by cases h
  held i k c h := by cases h
  resolved i c r h := by cases h
  answered i r h := by cases h

/-! ## What keeps it -/

/-- A call goes on without touching the cells or the entries. -/
theorem Shared.setCall (h : Shared t s)
    (hturn : ∀ t' c, k ≠ .building t' c) (hheld : ∀ c, k.mayBuild t c → s.HasCell t c)
    (hgiven : ∀ r, k.given t r → ∃ c, (∀ c' r', k = .resolved t c' r' → c' = c) ∧
      s.HasCell t c ∧ (s.cells c).value = some r) : Shared t (s.setCall i k) where
  turn j t' c hj := by
    rw [World.calls_setCall] at hj
    split at hj
    · exact absurd (Option.some.inj hj) (hturn t' c)
    · exact h.turn j t' c hj
  held j k' c hj hk := by
    rw [World.calls_setCall] at hj
    split at hj
    · cases hj
      exact hheld c hk
    · exact h.held j k' c hj hk
  resolved j c r hj := by
    rw [World.calls_setCall] at hj
    split at hj
    · obtain ⟨c', hc', hcell⟩ := hgiven r (by rw [Option.some.inj hj]; exact ⟨rfl, rfl⟩)
      rwa [hc' c r (Option.some.inj hj)]
    · exact h.resolved j c r hj
  answered j r hj := by
    rw [World.calls_setCall] at hj
    split at hj
    · obtain ⟨c', -, hcell⟩ := hgiven r (by rw [Option.some.inj hj]; exact ⟨rfl, rfl⟩)
      exact ⟨c', hcell⟩
    · exact h.answered j r hj

/-- The call that has the turn, or takes it, changes its empty cell. -/
theorem Shared.setCell (h : Shared t s) {i t' c} {o : OnceCell ρ}
    (hcell : (s.cells c).value = none) (hturn : ∀ j ∈ (s.cells c).initialiser, j = i)
    (hcall : ∃ k₀, s.calls i = some k₀ ∧ (k₀.mayBuild t c ∨ t' ≠ t))
    (hk : (k = .building t' c ∧ o = ⟨none, some i⟩) ∨ k = .failed t' c ∨
      ∃ r, k = .resolved t' c r ∧ o.value = some r) :
    Shared t ((s.setCell c o).setCall i k) := by
  -- The value of the cell was asked for by nobody.
  have hvalue {c' : ℕ} {r : ρ} (hr : (s.cells c').value = some r) :
      ((s.setCell c o).cells c').value = some r := by
    have hne : c' ≠ c := by
      rintro rfl
      simp [hcell] at hr
    simpa [World.setCell, hne] using hr
  have hown (ht : t' = t) : s.HasCell t c := by
    obtain ⟨k₀, hi, hk₀ | hne⟩ := hcall
    · exact h.held i k₀ c hi hk₀
    · exact absurd ht hne
  constructor
  case turn =>
    intro j t₁ c₁ hj
    rw [World.calls_setCall, World.calls_setCell] at hj
    split at hj
    · rename_i hji
      subst hji
      rcases hk with ⟨rfl, rfl⟩ | rfl | ⟨r, rfl, -⟩
      · cases hj
        simp [World.setCall, World.setCell]
      · cases hj
      · cases hj
    · rename_i hji
      have hcells := h.turn j t₁ c₁ hj
      have hne : c₁ ≠ c := by
        rintro rfl
        exact hji (hturn j (by rw [hcells]; rfl))
      simpa [World.setCall, World.setCell, hne] using hcells
  case held =>
    intro j k' c₁ hj hk'
    rw [World.calls_setCall, World.calls_setCell] at hj
    split at hj
    · obtain rfl := Option.some.inj hj
      rcases hk with ⟨rfl, rfl⟩ | rfl | ⟨r, rfl, -⟩
      · obtain ⟨ht, rfl⟩ := hk'
        exact hown ht
      · cases hk'
      · cases hk'
    · exact h.held j k' c₁ hj hk'
  case resolved =>
    intro j c₁ r hj
    rw [World.calls_setCall, World.calls_setCell] at hj
    split at hj
    · rcases hk with ⟨rfl, rfl⟩ | rfl | ⟨r, rfl, ho⟩
      · cases hj
      · cases hj
      · cases hj
        exact ⟨hown rfl, by simpa [World.setCall, World.setCell] using ho⟩
    · exact ⟨(h.resolved j c₁ r hj).1, hvalue (h.resolved j c₁ r hj).2⟩
  case answered =>
    intro j r hj
    rw [World.calls_setCall, World.calls_setCell] at hj
    split at hj
    · rcases hk with ⟨rfl, rfl⟩ | rfl | ⟨r, rfl, -⟩ <;> cases hj
    · obtain ⟨c₁, hc, hr⟩ := h.answered j r hj
      exact ⟨c₁, hc, hvalue hr⟩

/-- The entry of the tenant keeps its cell, or the cell is empty and nobody is left on it. -/
theorem Shared.setEntries (h : Shared t s) {m : Entries} {n a : ℕ}
    (hm : ∀ c, s.HasCell t c →
      ((∃ j k, s.calls j = some k ∧ k.mayBuild t c) ∨ ∃ r, (s.cells c).value = some r) →
      ∃ e ∈ m.lookup t, e.cell = c) :
    Shared t { s with entries := m, tick := n, allocated := a } where
  turn := h.turn
  held j k c hj hk := hm c (h.held j k c hj hk) (.inl ⟨j, k, hj, hk⟩)
  resolved j c r hj :=
    ⟨hm c (h.resolved j c r hj).1 (.inr ⟨r, (h.resolved j c r hj).2⟩), (h.resolved j c r hj).2⟩
  answered j r hj := by
    obtain ⟨c, hc, hr⟩ := h.answered j r hj
    exact ⟨c, hm c hc (.inr ⟨r, hr⟩), hr⟩

theorem lookup_idleKept {keep : ℕ} (h : t ∈ s.idleKept keep) :
    (s.idleKept keep).lookup t = s.entries.lookup t := by
  obtain ⟨e, he⟩ := Option.isSome_iff_exists.mp (AList.lookup_isSome.mpr h)
  have hmem : (⟨t, e⟩ : Sigma fun _ : TenantId => Entry) ∈ s.entries.entries :=
    (List.mem_filter.mp (AList.mem_lookup_iff.mp he)).1
  rw [he]
  exact (AList.mem_lookup_iff.mpr hmem).symm

theorem World.HasCell.mem {c : ℕ} (h : s.HasCell t c) : t ∈ s.entries := by
  obtain ⟨e, he, -⟩ := h
  exact AList.lookup_isSome.mp (Option.isSome_of_mem he)

theorem Shared.getOrBuild (h : Shared t s) (i : ℕ) (t' : TenantId) :
    Shared t (s.getOrBuild i t') := by
  unfold World.getOrBuild
  split
  · rename_i e he
    refine h.setCall (by simp) ?_ (by simp [Call.given])
    rintro c ⟨rfl, rfl⟩
    exact ⟨e, he, rfl⟩
  · rename_i hnone
    refine Shared.setCall (h.setEntries ?_) (by simp) ?_ (by simp [Call.given])
    · rintro c ⟨e, he, rfl⟩ -
      have hne : t ≠ t' := by
        rintro rfl
        simp [hnone] at he
      exact ⟨e, by rwa [AList.lookup_insert_ne hne], rfl⟩
    · rintro c ⟨rfl, rfl⟩
      exact ⟨_, AList.lookup_insert _, rfl⟩

theorem mem_step_of_not_evicts (hkeep : ¬ Evicts R t s a)
    (hforget : ∀ i, a ≠ .forgetFailed i) (ht : t ∈ s.entries) : t ∈ (s.step R a).entries := by
  by_contra hgone
  exact hkeep ⟨ht, hgone, hforget⟩

/-- A failed call that drops an entry drops one whose cell nobody is on. -/
theorem Shared.forgetFailed (h : Shared t s) (hcell : ¬ Orphans t s (.forgetFailed i)) :
    Shared t (s.step R (.forgetFailed i)) := by
  simp only [World.step]
  split
  · rename_i t' c hi
    refine Shared.setCall (h.setEntries ?_) (by simp) (by simp [Call.mayBuild]) (by simp [Call.given])
    rintro c' ⟨e, he, rfl⟩ huse
    split
    · rename_i hours
      by_cases ht : t' = t
      · -- The entry is dropped, so that its cell is empty, and nobody is on it.
        subst ht
        have hcells : e.cell = c ∧ (s.cells e.cell).value = none := by
          simpa [World.ours, Option.mem_def.mp he, World.initialized] using hours
        rcases huse with ⟨j, k, hj, hk⟩ | ⟨r, hr⟩
        · exact absurd ⟨i, c, rfl, hi, hours, j, k, hj, hcells.1 ▸ hk⟩ hcell
        · simp [hcells.2] at hr
      · exact ⟨e, by rwa [AList.lookup_erase_ne (Ne.symm ht)], rfl⟩
    · exact ⟨e, he, rfl⟩
  · exact h

/-- A call that puts its cell back leaves the tenant on the cell it has. -/
theorem Shared.touchAndEvict (h : Shared t s) {rank : TenantId → ℕ}
    (hkeep : ¬ Evicts R t s (.touchAndEvict i rank)) :
    Shared t (s.step R (.touchAndEvict i rank)) := by
  have hstays := mem_step_of_not_evicts hkeep (by simp)
  simp only [World.step] at hstays ⊢
  split
  · rename_i t' c r hi
    simp only [hi] at hstays
    have hentry : ∀ c', s.HasCell t c' → ∃ e ∈ (trim R.maxTenants s.initialized t' rank
        (s.touched t' c)).lookup t, e.cell = c' := by
      rintro c' ⟨e, he, rfl⟩
      by_cases ht : t = t'
      · subst ht
        refine ⟨_, by rw [lookup_trim_self, World.touched, AList.lookup_insert]; rfl, ?_⟩
        simp [Option.mem_def.mp he]
      · refine ⟨e, ?_, rfl⟩
        have hmem : t ∈ s.entries := World.HasCell.mem ⟨e, he, rfl⟩
        rw [lookup_trim_of_mem (hstays hmem), World.touched, AList.lookup_insert_ne ht]
        exact he
    refine Shared.setCall (h.setEntries fun c' hc' _ => hentry c' hc') (by simp)
      (by simp [Call.mayBuild]) ?_
    rintro r' ⟨rfl, rfl⟩
    obtain ⟨hc, hr⟩ := h.resolved i c _ hi
    exact ⟨c, by simp, hentry c hc, hr⟩
  · exact h

theorem Shared.step (h : Shared t s) (hkeep : ¬ Evicts R t s a)
    (hcell : ¬ Orphans t s a) : Shared t (s.step R a) := by
  cases a with
  | getOrBuild i t' =>
    simp only [World.step]
    split
    · exact h.getOrBuild i t'
    · exact h
  | turn i =>
    simp only [World.step]
    split
    · rename_i t' c hi
      have hheld (ht : t' = t) : s.HasCell t c := h.held i _ c hi ⟨ht, rfl⟩
      unfold World.turn
      split
      · rename_i r hr
        refine h.setCall (by simp) (by simp [Call.mayBuild]) ?_
        rintro r' ⟨ht, rfl⟩
        exact ⟨c, fun c' r' h => by cases h; rfl, hheld ht, hr⟩
      · rename_i hempty
        split
        · exact h
        · rename_i hidle
          refine h.setCell hempty (by simp [hidle]) ⟨_, hi, ?_⟩ (.inl ⟨rfl, rfl⟩)
          by_cases ht : t' = t
          · exact .inl ⟨ht, rfl⟩
          · exact .inr ht
    · exact h
  | build i outcome =>
    simp only [World.step]
    split
    · rename_i t' c hi
      have hturn := h.turn i t' c hi
      have hcall : ∃ k₀, s.calls i = some k₀ ∧ (k₀.mayBuild t c ∨ t' ≠ t) := by
        refine ⟨_, hi, ?_⟩
        by_cases ht : t' = t
        · exact .inl ⟨ht, rfl⟩
        · exact .inr ht
      cases outcome with
      | some r =>
        exact h.setCell (by simp [hturn]) (by simp [hturn, eq_comm]) hcall (.inr (.inr ⟨r, rfl, rfl⟩))
      | none => exact h.setCell (by simp [hturn]) (by simp [hturn, eq_comm]) hcall (.inr (.inl rfl))
    · exact h
  | forgetFailed i => exact h.forgetFailed hcell
  | touchAndEvict i rank => exact h.touchAndEvict hkeep
  | evict t' =>
    refine h.setEntries fun c hc _ => ?_
    have hmem := mem_step_of_not_evicts hkeep (by simp) hc.mem
    simp only [World.step, AList.mem_erase] at hmem
    obtain ⟨e, he, rfl⟩ := hc
    exact ⟨e, by rwa [AList.lookup_erase_ne hmem.1], rfl⟩
  | evictAll =>
    refine h.setEntries fun c hc _ => ?_
    have hmem := mem_step_of_not_evicts hkeep (by simp) hc.mem
    exact absurd hmem (AList.notMem_empty t)
  | evictIdle keep =>
    refine h.setEntries fun c hc _ => ?_
    have hmem : t ∈ s.idleKept keep := mem_step_of_not_evicts hkeep (by simp) hc.mem
    obtain ⟨e, he, rfl⟩ := hc
    exact ⟨e, by rwa [lookup_idleKept hmem], rfl⟩

/-- While the tenant is not evicted and no failed caller drops its cell under another caller, at most
one call builds it at any moment and every request that succeeds is given the same runtime. -/
theorem built_once (R : TenantRegistry) (t : TenantId) {acts : List (Act ρ)}
    (hkeep : Along (World.step R) (fun s a => ¬ Evicts R t s a) (World.new ρ) acts)
    (hcell : Along (World.step R) (fun s a => ¬ Orphans t s a) (World.new ρ) acts) :
    OneBuild t (run (World.step R) (World.new ρ) acts) ∧
      OneRuntime t (run (World.step R) (World.new ρ) acts) := by
  have hshared : Shared t (run (World.step R) (World.new ρ) acts) :=
    invariant_along _ (fun s a h hC => h.step hC.1 hC.2) shared_new (hkeep.and _ hcell)
  exact ⟨hshared.oneBuild, hshared.oneRuntime⟩

/-- A registry for one runtime. -/
def oneSeat : TenantRegistry := ⟨1, by decide⟩

/-- Two requests for a tenant that share a build, beside one for another tenant. -/
def sharedBuild : List (Act ℕ) :=
  [.getOrBuild 0 "acme", .getOrBuild 1 "acme", .turn 0, .turn 1, .getOrBuild 2 "globex", .turn 2,
    .build 0 (some 7), .turn 1, .touchAndEvict 1 (fun _ => 0), .touchAndEvict 0 (fun _ => 0)]

theorem built_once_sharedBuild :
    OneBuild "acme" (run (World.step oneSeat) (World.new ℕ) sharedBuild) ∧
      OneRuntime "acme" (run (World.step oneSeat) (World.new ℕ) sharedBuild) := by
  have hkept : Along (World.step oneSeat)
      (fun s a => "acme" ∈ s.entries.keys → "acme" ∈ (s.step oneSeat a).entries.keys)
      (World.new ℕ) sharedBuild := by
    decide +kernel
  have hnone : ∀ a ∈ sharedBuild, ∀ i, a ≠ .forgetFailed i := by
    simp [sharedBuild]
  refine built_once oneSeat "acme" (hkept.mono _ ?_) ((along_of_forall_mem _ hnone).mono _ ?_)
  · rintro s a hkept ⟨hmem, hgone, -⟩
    exact hgone (hkept hmem)
  · rintro s a hne ⟨i, c, rfl, -⟩
    exact hne i rfl

/-- Before its last phase a call evicts nothing. -/
theorem not_evicts (h : (∃ i t', a = .getOrBuild i t') ∨ (∃ i, a = .turn i) ∨
    (∃ i outcome, a = .build i outcome) ∨ ∃ i, a = .forgetFailed i) : ¬ Evicts R t s a := by
  rintro ⟨hmem, hgone, hforget⟩
  apply hgone
  rcases h with ⟨i, t', rfl⟩ | ⟨i, rfl⟩ | ⟨i, outcome, rfl⟩ | ⟨i, rfl⟩
  · simp only [World.step]
    split
    · unfold World.getOrBuild
      split
      · exact hmem
      · exact AList.mem_insert _ |>.mpr (.inr hmem)
    · exact hmem
  · simp only [World.step]
    split
    · unfold World.turn
      split
      · exact hmem
      · split <;> exact hmem
    · exact hmem
  · simp only [World.step]
    split
    · cases outcome <;> exact hmem
    · exact hmem
  · exact absurd rfl (hforget i)

/-- The first build of a tenant fails; before the failed caller drops the cell, a waiter has taken its
turn on it, and a newcomer then starts on a fresh one. -/
def orphanedCell : List (Act ℕ) :=
  [.getOrBuild 0 "acme", .getOrBuild 1 "acme", .turn 0, .build 0 none, .turn 1, .forgetFailed 0,
    .getOrBuild 2 "acme", .turn 2]

/-- The tenant is never evicted, and yet it is built by two calls at a time, each of which is given a
runtime of its own. -/
theorem built_twice :
    (∀ a ∈ orphanedCell ++ [.build 1 (some 7), .build 2 (some 8)], ∀ s : World ℕ,
        ¬ Evicts oneSeat "acme" s a) ∧
      ¬ OneBuild "acme" (run (World.step oneSeat) (World.new ℕ) orphanedCell) ∧
      ¬ OneRuntime "acme" (run (World.step oneSeat) (World.new ℕ)
        (orphanedCell ++ [.build 1 (some 7), .build 2 (some 8)])) := by
  refine ⟨?_, fun h => ?_, fun h => ?_⟩
  · simp [orphanedCell, not_evicts]
  · have := h 1 2 0 1 (by decide +kernel) (by decide +kernel)
    contradiction
  · have := h 1 2 (.resolved "acme" 0 7) (.resolved "acme" 1 8) 7 8 (by decide +kernel)
      (by decide +kernel) ⟨rfl, rfl⟩ ⟨rfl, rfl⟩
    contradiction

end Backbone.Tenant
