import Backbone.Tenant.Capacity

/-!
# Cancelled requests

A call of `get_or_build` is a future, and whoever holds it can drop it at any point where it waits.
The cell it was to initialise is idle again then, but its entry stays: the clean-up behind a failed
build and the trimming behind a successful one are code of the call itself, and no other code looks
for what a dropped call leaves.

Every entry that is not built still needs a call that will build or drop it, and a registry over its
capacity needs one that will trim it. Both are kept along every run whose drops leave another such
call behind.

Reference: `backbone-tenant/src/lib.rs`, `get_or_build`.
-/

namespace Backbone.Tenant

open Machine

variable {ρ : Type} {R : TenantRegistry} {s : World ρ} {i : ℕ}

/-! ## Dropping a call -/

/-- The call is dropped where it waits; one that has returned is gone already. A build that is
dropped lets the next call initialise the cell. -/
def World.drop (s : World ρ) (i : ℕ) : World ρ :=
  match s.calls i with
  | some (.building _ c) => { s.setCell c ⟨none, none⟩ with calls := Function.update s.calls i none }
  | some (.waiting _ _) | some (.failed _ _) | some (.resolved _ _ _) =>
    { s with calls := Function.update s.calls i none }
  | _ => s

/-- A step of the registry, or a dropped call. -/
inductive Move (ρ : Type) where
  | go (act : Act ρ)
  | drop (i : ℕ)

def World.move (R : TenantRegistry) (s : World ρ) : Move ρ → World ρ
  | .go act => s.step R act
  | .drop i => s.drop i

/-- The call will be given a runtime whatever happens, and trim the registry after that. -/
def World.Trims (s : World ρ) : Call ρ → Prop
  | .resolved _ _ _ => True
  | .waiting _ c => s.initialized c = true
  | _ => False

/-- What the dropped call would have seen to, another call will: an entry that is not built, and the
trimming of a registry over its capacity. -/
def Spares (R : TenantRegistry) (s : World ρ) (i : ℕ) : Prop :=
  ∀ k, s.calls i = some k →
    (∀ e ∈ s.entries.entries, s.initialized e.2.cell = false → k.owes e.1 e.2.cell →
      ∃ j k', j ≠ i ∧ s.calls j = some k' ∧ k'.owes e.1 e.2.cell) ∧
    (s.Trims k → R.maxTenants < resident s.initialized s.entries →
      ∃ j k', j ≠ i ∧ s.calls j = some k' ∧ s.Trims k')

/-- Only a drop can do harm. -/
def Harmless (R : TenantRegistry) (s : World ρ) : Move ρ → Prop
  | .go _ => True
  | .drop i => Spares R s i

/-! ## The account without its bound -/

theorem Accounted.roomier {R' : TenantRegistry} (h : Accounted R s)
    (hle : R.maxTenants ≤ R'.maxTenants) : Accounted R' s where
  turn := h.turn
  resolved := h.resolved
  fresh := h.fresh
  waiting := h.waiting
  held := h.held
  owed := h.owed
  bound l hl hsettled := (h.bound l hl hsettled).trans hle

theorem sublist_foldl_erase (evs : List (Entries × TenantId)) (m : Entries) :
    List.Sublist (evs.foldl (fun m e => m.erase e.2) m).entries m.entries := by
  induction evs generalizing m with
  | nil => exact List.Sublist.refl _
  | cons e evs ih => exact (ih (m.erase e.2)).trans (List.kerase_sublist _ _)

/-- A registry that is not over its capacity is not trimmed. -/
theorem trim_of_le {maxTenants : ℕ} {built : ℕ → Bool} {tenant : TenantId} {rank : TenantId → ℕ}
    {m : Entries} (h : resident built m ≤ maxTenants) :
    trim maxTenants built tenant rank m = m := by
  have hnone : evictions maxTenants built tenant rank m.entries.length m = [] := by
    cases m.entries.length with
    | zero => rfl
    | succ n => rw [evictions, if_pos h]
  rw [trim, hnone]
  rfl

/-- Every entry that is not built has a call that will see to it, at some capacity. -/
def Kept (s : World ρ) : Prop := ∃ R : TenantRegistry, Accounted R s

theorem Kept.step (h : Kept s) (R : TenantRegistry) (a : Act ρ) : Kept (s.step R a) := by
  obtain ⟨R', h⟩ := h
  cases a with
  | getOrBuild i t => exact ⟨R', h.step (.getOrBuild i t)⟩
  | turn i => exact ⟨R', h.step (.turn i)⟩
  | build i outcome => exact ⟨R', h.step (.build i outcome)⟩
  | forgetFailed i => exact ⟨R', h.step (.forgetFailed i)⟩
  | evict t => exact ⟨R', h.step (.evict t)⟩
  | evictAll => exact ⟨R', h.step .evictAll⟩
  | evictIdle keep => exact ⟨R', h.step (.evictIdle keep)⟩
  | touchAndEvict i rank =>
    simp only [World.step]
    split
    · rename_i t c r hi
      -- At a capacity that has room for every entry the trimming is apart from the rest.
      let roomy : TenantRegistry := ⟨R'.maxTenants + (s.touched t c).entries.length, by
        have := R'.pos
        omega⟩
      have hresident : resident s.initialized (s.touched t c) ≤ roomy.maxTenants :=
        List.countP_le_length.trans (Nat.le_add_left _ _)
      have hroomy : Accounted roomy s := h.roomier (Nat.le_add_right _ _)
      have htouched := hroomy.touchAndEvict hi rank
      refine ⟨roomy, htouched.setEntries ?_⟩
      simp only [World.touchAndEvict, trim_of_le hresident]
      exact sublist_foldl_erase _ _
    · exact ⟨R', h⟩

/-! ## What a drop does -/

@[simp] theorem World.entries_drop (i : ℕ) : (s.drop i).entries = s.entries := by
  unfold World.drop
  split <;> rfl

@[simp] theorem World.allocated_drop (i : ℕ) : (s.drop i).allocated = s.allocated := by
  unfold World.drop
  split <;> rfl

/-- The other calls are as they were; the dropped one is gone, unless it had returned. -/
theorem World.calls_drop {j : ℕ} {k : Call ρ} (h : (s.drop i).calls j = some k) :
    s.calls j = some k ∧ (j = i → k.returned = true) := by
  unfold World.drop at h
  by_cases hji : j = i
  · subst hji
    cases hcall : s.calls j with
    | none => simp [hcall] at h
    | some k₀ =>
      cases k₀ with
      | ok | err =>
        simp only [hcall, Option.some.injEq] at h
        subst h
        exact ⟨rfl, fun _ => rfl⟩
      | waiting | building | failed | resolved => simp [hcall] at h
  · cases hcall : s.calls i with
    | none => simp_all
    | some k₀ => cases k₀ <;> simp_all [World.setCell]

theorem World.calls_drop_of_ne {j : ℕ} (h : j ≠ i) : (s.drop i).calls j = s.calls j := by
  unfold World.drop
  cases hcall : s.calls i with
  | none => rfl
  | some k₀ => cases k₀ <;> simp [h]

/-- Only the cell that the dropped call was to initialise changes, and it is idle then. -/
theorem World.cells_drop (i c : ℕ) :
    (s.drop i).cells c = s.cells c ∨
      (s.drop i).cells c = .new ∧ ∃ t, s.calls i = some (.building t c) := by
  unfold World.drop
  split
  · rename_i t c' hi
    by_cases hc : c = c'
    · subst hc
      exact .inr ⟨by simp [World.setCell, OnceCell.new], t, hi⟩
    · exact .inl (by simp [World.setCell, hc])
  all_goals exact .inl rfl

/-- A drop changes no runtime. -/
theorem Kept.initialized_drop (h : Kept s) (i : ℕ) : (s.drop i).initialized = s.initialized := by
  obtain ⟨R', h⟩ := h
  funext c
  rcases World.cells_drop (s := s) i c with hc | ⟨hc, t, hi⟩
  · rw [World.initialized, World.initialized, hc]
  · rw [World.initialized, World.initialized, hc, h.turn i t c hi]
    rfl

theorem Kept.drop (h : Kept s) (hspares : Spares R s i) : Kept (s.drop i) := by
  have hinitialized := h.initialized_drop i
  obtain ⟨R', h⟩ := h
  refine ⟨⟨s.entries.entries.length + 1, Nat.succ_pos _⟩, ?_⟩
  constructor
  case turn =>
    intro j t c hj
    obtain ⟨hcall, hreturned⟩ := World.calls_drop hj
    rcases World.cells_drop (s := s) i c with hc | ⟨-, t', hi⟩
    · rw [hc, h.turn j t c hcall]
    · -- One call at a time initialises a cell.
      have hji : j = i := by
        have := (h.turn j t c hcall).symm.trans (h.turn i t' c hi)
        simpa using this
      cases hreturned hji
  case resolved =>
    intro j t c r hj
    obtain ⟨hcall, -⟩ := World.calls_drop hj
    have hvalue := h.resolved j t c r hcall
    rcases World.cells_drop (s := s) i c with hc | ⟨-, t', hi⟩
    · rw [hc, hvalue]
    · rw [h.turn i t' c hi] at hvalue
      cases hvalue
  case fresh =>
    intro c hc
    rw [World.allocated_drop] at hc
    rcases World.cells_drop (s := s) i c with hsame | ⟨hnew, -⟩
    · rw [hsame, h.fresh c hc]
    · exact hnew
  case waiting =>
    intro j t c hj
    rw [World.allocated_drop]
    exact h.waiting j t c (World.calls_drop hj).1
  case held =>
    intro e he
    rw [World.allocated_drop]
    rw [World.entries_drop] at he
    exact h.held e he
  case owed =>
    intro e he hempty
    rw [World.entries_drop] at he
    rw [hinitialized] at hempty
    obtain ⟨j, k, hj, howes⟩ := h.owed e he hempty
    by_cases hji : j = i
    · subst hji
      obtain ⟨j', k', hne, hj', howes'⟩ := (hspares k hj).1 e he hempty howes
      exact ⟨j', k', (World.calls_drop_of_ne hne).trans hj', howes'⟩
    · exact ⟨j, k, (World.calls_drop_of_ne hji).trans hj, howes⟩
  case bound =>
    intro l hl _
    rw [World.entries_drop] at hl
    exact hl.length_le.trans (Nat.le_succ _)

/-! ## Over the capacity -/

/-- A registry over its capacity has a call that will trim it. -/
def Attended (R : TenantRegistry) (s : World ρ) : Prop :=
  R.maxTenants < resident s.initialized s.entries →
    ∃ i k, s.calls i = some k ∧ s.Trims k

theorem World.trims_congr {s' : World ρ} (h : s'.initialized = s.initialized) (k : Call ρ) :
    s'.Trims k ↔ s.Trims k := by
  cases k with
  | waiting t c => rw [World.Trims, World.Trims, h]
  | building | failed | resolved | ok | err => exact Iff.rfl

section

variable (h : Attended R s)
include h

/-- A step of one call that makes no entry resident and takes no call away that trims. -/
theorem Attended.mono {s' : World ρ}
    (hresident : resident s'.initialized s'.entries ≤ resident s.initialized s.entries)
    (hcalls : ∀ i k, s.calls i = some k → s.Trims k →
      ∃ j k', s'.calls j = some k' ∧ s'.Trims k') : Attended R s' := by
  intro hover
  obtain ⟨i, k, hi, htrims⟩ := h (hover.trans_le hresident)
  exact hcalls i k hi htrims

theorem Attended.setEntries {m : Entries}
    (hsub : List.Sublist m.entries s.entries.entries) : Attended R { s with entries := m } :=
  h.mono (hsub.countP_le) fun i k hi htrims => ⟨i, k, hi, (World.trims_congr rfl k).mpr htrims⟩

/-- A call that does not trim goes on, whatever becomes of it. -/
theorem Attended.setCall {i : ℕ} (k : Call ρ)
    (hi : ∀ k₀, s.calls i = some k₀ → s.Trims k₀ → s.Trims k) : Attended R (s.setCall i k) := by
  refine h.mono le_rfl fun j k₀ hj htrims => ?_
  by_cases hji : j = i
  · subst hji
    exact ⟨j, k, by simp [World.calls_setCall],
      (World.trims_congr (World.initialized_setCall s j k) k).mpr (hi k₀ hj htrims)⟩
  · exact ⟨j, k₀, by simp [World.calls_setCall, hji, hj],
      (World.trims_congr (World.initialized_setCall s i k) k₀).mpr htrims⟩

/-- A cell that is not built stays so. -/
theorem Attended.setCell {c : ℕ} {o : OnceCell ρ}
    (hcell : (s.cells c).value = none) (ho : o.value = none) : Attended R (s.setCell c o) := by
  have hsame : (s.setCell c o).initialized = s.initialized := by
    funext c'
    by_cases hc : c' = c
    · subst hc
      simp [World.initialized, World.setCell, hcell, ho]
    · simp [World.initialized, World.setCell, hc]
  refine h.mono ?_ fun i k hi htrims => ⟨i, k, hi, (World.trims_congr hsame k).mpr htrims⟩
  rw [hsame]
  exact le_rfl

theorem Attended.step (hkept : Kept s) (a : Act ρ) : Attended R (s.step R a) := by
  cases a with
  | getOrBuild i t =>
    simp only [World.step]
    split
    · rename_i hi
      unfold World.getOrBuild
      split
      · exact h.setCall _ (by simp [hi])
      · -- The new entry is not built.
        obtain ⟨R', hkept⟩ := hkept
        have hnew : s.initialized s.allocated = false := by
          simp [World.initialized, hkept.fresh s.allocated le_rfl, OnceCell.new]
        have hresident : resident s.initialized (s.entries.insert t ⟨s.allocated, s.tick⟩) ≤
            resident s.initialized s.entries := by
          rw [resident, AList.entries_insert, List.countP_cons_of_neg (by simp [hnew])]
          exact (List.kerase_sublist t _).countP_le
        have hinsert : Attended R { s with
            entries := s.entries.insert t ⟨s.allocated, s.tick⟩
            allocated := s.allocated + 1 } :=
          h.mono hresident fun j k hj htrims => ⟨j, k, hj, (World.trims_congr rfl k).mpr htrims⟩
        exact hinsert.setCall _ (by simp [hi])
    · exact h
  | turn i =>
    simp only [World.step]
    split
    · rename_i t c hi
      unfold World.turn
      split
      · exact h.setCall _ fun _ _ _ => trivial
      · rename_i hempty
        split
        · exact h
        · refine (h.setCell hempty rfl).setCall _ ?_
          simp [hi, World.Trims, World.initialized, World.setCell]
    · exact h
  | build i outcome =>
    simp only [World.step]
    split
    · rename_i t c hi
      cases outcome with
      | some r =>
        exact fun _ => ⟨i, .resolved t c r, by simp [World.build, World.calls_setCall], trivial⟩
      | none =>
        obtain ⟨R', hkept⟩ := hkept
        have hempty : (s.cells c).value = none := by rw [hkept.turn i t c hi]
        refine (h.setCell hempty rfl).setCall _ ?_
        simp [hi, World.Trims]
    · exact h
  | forgetFailed i =>
    simp only [World.step]
    split
    · rename_i t c hi
      unfold World.forgetFailed
      split
      · refine Attended.setCall (h.setEntries (List.kerase_sublist t _)) _ ?_
        simp [hi, World.Trims]
      · refine Attended.setCall h _ ?_
        simp [hi, World.Trims]
    · exact h
  | touchAndEvict i rank =>
    simp only [World.step]
    split
    · intro hover
      exact absurd hover (not_lt.mpr (resident_trim_le R.pos _))
    · exact h
  | evict t => exact h.setEntries (List.kerase_sublist t _)
  | evictAll => exact h.setEntries (List.nil_sublist _)
  | evictIdle keep => exact h.setEntries List.filter_sublist

theorem Attended.drop (hkept : Kept s) {i : ℕ} (hspares : Spares R s i) :
    Attended R (s.drop i) := by
  have hsame := hkept.initialized_drop i
  intro hover
  rw [World.entries_drop, hsame] at hover
  obtain ⟨j, k, hj, htrims⟩ := h hover
  by_cases hji : j = i
  · subst hji
    obtain ⟨j', k', hne, hj', htrims'⟩ := (hspares k hj).2 htrims hover
    exact ⟨j', k', (World.calls_drop_of_ne hne).trans hj', (World.trims_congr hsame k').mpr htrims'⟩
  · exact ⟨j, k, (World.calls_drop_of_ne hji).trans hj, (World.trims_congr hsame k).mpr htrims⟩

end

/-! ## Runs with drops -/

/-- With no call in progress nothing is left behind. -/
theorem bounded_of_kept (hkept : Kept s) (hattended : Attended R s) : Bounded R s := by
  intro hidle
  obtain ⟨R', h⟩ := hkept
  have hbuilt := (h.idle hidle).1
  refine ⟨hbuilt, ?_⟩
  have hall : resident s.initialized s.entries = s.entries.entries.length :=
    List.countP_eq_length.mpr hbuilt
  by_contra hover
  rw [← hall, not_le] at hover
  obtain ⟨i, k, hi, htrims⟩ := hattended hover
  have hreturned := hidle i k hi
  cases k with
  | waiting | building | failed | resolved => cases hreturned
  | ok | err => exact htrims

theorem kept_and_attended_move (h : Kept s ∧ Attended R s) (a : Move ρ) (hharmless : Harmless R s a) :
    Kept (s.move R a) ∧ Attended R (s.move R a) := by
  cases a with
  | go act => exact ⟨h.1.step R act, h.2.step h.1 act⟩
  | drop i => exact ⟨h.1.drop hharmless, h.2.drop h.1 hharmless⟩

theorem attended_new : Attended R (World.new ρ) := fun hover => absurd hover (Nat.not_lt_zero _)

/-- Among any calls, any of which may be dropped where another one sees to what it leaves, the
registry is bounded and keeps nothing that is not built in every state in which no call is in
progress. -/
theorem bounded_of_harmless (R : TenantRegistry) {moves : List (Move ρ)}
    (h : Along (World.move R) (Harmless R) (World.new ρ) moves) :
    Along (World.move R) (fun s a => Bounded R (s.move R a)) (World.new ρ) moves :=
  along_of_invariant (World.move R) (I := fun s => Kept s ∧ Attended R s)
    (fun _ a hs hc => kept_and_attended_move hs a hc)
    (fun _ a hs hc =>
      bounded_of_kept (kept_and_attended_move hs a hc).1 (kept_and_attended_move hs a hc).2)
    ⟨⟨R, accounted_new⟩, attended_new⟩ h

/-- Two requests for one tenant; the one that builds is dropped, and the other one takes over. -/
def takenOver : List (Move ℕ) :=
  [.go (.getOrBuild 0 "acme"), .go (.getOrBuild 1 "acme"), .go (.turn 0), .drop 0, .go (.turn 1),
    .go (.build 1 (some 1)), .go (.touchAndEvict 1 fun _ => 0)]

theorem bounded_takenOver :
    Along (World.move ⟨1, by decide⟩) (fun s a => Bounded ⟨1, by decide⟩ (s.move ⟨1, by decide⟩ a))
      (World.new ℕ) takenOver := by
  refine bounded_of_harmless ⟨1, by decide⟩
    ⟨trivial, trivial, trivial, ?_, trivial, trivial, trivial, trivial⟩
  intro k hk
  obtain rfl : Call.building "acme" 0 = k := Option.some.inj hk
  exact ⟨fun e _ _ howes => ⟨1, .waiting "acme" 0, by decide, rfl, howes⟩, fun htrims => htrims.elim⟩

/-- A request for an unknown tenant whose client goes away during the build. -/
def goneAway : List (Move ℕ) := [.go (.getOrBuild 0 "ghost"), .go (.turn 0), .drop 0]

/-- Two requests that are dropped behind their builds, for a registry of one seat. -/
def untrimmed : List (Move ℕ) :=
  [.go (.getOrBuild 0 "acme"), .go (.turn 0), .go (.build 0 (some 1)), .drop 0,
    .go (.getOrBuild 1 "globex"), .go (.turn 1), .go (.build 1 (some 2)), .drop 1]

/-- The entry of the unknown tenant stays, and so do two runtimes where one has a seat. -/
theorem left_behind :
    ¬ Bounded ⟨1, by decide⟩ (run (World.move ⟨1, by decide⟩) (World.new ℕ) goneAway) ∧
      ¬ Bounded ⟨1, by decide⟩ (run (World.move ⟨1, by decide⟩) (World.new ℕ) untrimmed) := by
  constructor
  · intro h
    have hidle : ∀ i, (run (World.move ⟨1, by decide⟩) (World.new ℕ) goneAway).calls i = none := by
      intro i
      cases i with
      | zero => rfl
      | succ i => rfl
    have hbuilt := (h (by simp [hidle])).1
    revert hbuilt
    decide +kernel
  · intro h
    have hidle : ∀ i, (run (World.move ⟨1, by decide⟩) (World.new ℕ) untrimmed).calls i = none := by
      intro i
      rcases i with _ | _ | i
      all_goals rfl
    have hlength := (h (by simp [hidle])).2
    revert hlength
    decide +kernel

end Backbone.Tenant
