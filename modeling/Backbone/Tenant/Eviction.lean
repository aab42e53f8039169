import Backbone.Tenant.BuildOnce

/-!
# What an eviction ends

An eviction by hand removes the tenant's entry, and the next request builds the tenant anew. A request
that was given the old runtime before may still be ahead of its last phase: it finds no entry and puts
its own cell back, as if a failed caller had removed it, and requests that start later are served from
the evicted runtime again (`not_effective`). As long as no call does that, an eviction is effective
(`eviction_effective`).

Steps are counted beside the run, so that the eviction, the start of a call and the start of a build can
be compared.

Reference: `backbone-tenant/src/lib.rs`, `touch_and_evict`, `evict` and `evict_all`.
-/

namespace Backbone.Tenant

open Machine

variable {ρ : Type} {R : TenantRegistry} {t : TenantId} {s s' : World ρ} {c i : ℕ} {t' : TenantId}
  {a : Act ρ} {q : World ρ × Timeline} {k : Call ρ}

/-- The steps of a run at which something happened. -/
structure Timeline where
  now : ℕ
  /-- When the tenant was evicted by hand. -/
  evicted : List ℕ
  /-- When each call started. -/
  called : ℕ → ℕ
  /-- When the latest build in each cell started. -/
  started : ℕ → Option ℕ
  /-- When the build of the runtime started that each call was given. -/
  given : ℕ → Option ℕ

def Timeline.new : Timeline := ⟨0, [], fun _ => 0, fun _ => none, fun _ => none⟩

/-- `evict` of the tenant, or `evict_all`. -/
def Act.evicts (t : TenantId) : Act ρ → Bool
  | .evict t' => t' = t
  | .evictAll => true
  | _ => false

def Timeline.note (t : TenantId) (h : Timeline) (s : World ρ) (a : Act ρ) (s' : World ρ) :
    Timeline where
  now := h.now + 1
  evicted := if a.evicts t then h.now :: h.evicted else h.evicted
  called i := if (s.calls i).isNone && (s'.calls i).isSome then h.now else h.called i
  started c :=
    if (s.cells c).initialiser.isNone && (s'.cells c).initialiser.isSome then some h.now
    else h.started c
  given i :=
    match s'.calls i with
    | some (.resolved _ c _) => h.started c
    | _ => h.given i

/-- Whoever was given a runtime of the tenant was given one whose build started after every eviction
that came before the call. -/
def Effective (t : TenantId) (q : World ρ × Timeline) : Prop :=
  ∀ i k r, q.1.calls i = some k → k.given t r →
    ∃ b, q.2.given i = some b ∧ ∀ v ∈ q.2.evicted, v ≤ q.2.called i → v ≤ b

/-- A call that was given a runtime puts its cell back, and the build in it started before an
eviction. -/
def Revives (t : TenantId) (q : World ρ × Timeline) (a : Act ρ) : Prop :=
  ∃ i rank c r, a = .touchAndEvict i rank ∧ q.1.calls i = some (.resolved t c r) ∧
    t ∉ q.1.entries ∧ ∃ b ∈ q.2.started c, ∃ v ∈ q.2.evicted, b < v

/-! ## The invariant -/

/-- The tenant and the cell a call is at. -/
def Call.place : Call ρ → Option (TenantId × ℕ)
  | .waiting t c | .building t c | .failed t c | .resolved t c _ => some (t, c)
  | .ok _ _ | .err _ => none

/-- The build in the cell has started: the call runs it or was given what it built. -/
def Call.begun (c : ℕ) : Call ρ → Prop
  | .building _ c' | .resolved _ c' _ => c' = c
  | _ => False

/-- What is at hand for the tenant was built after its evictions. -/
structure Fresh (t : TenantId) (q : World ρ × Timeline) : Prop where
  past : ∀ v ∈ q.2.evicted, v < q.2.now
  called : ∀ i k, q.1.calls i = some k → q.2.called i < q.2.now
  entryCell : ∀ t' e, q.1.entries.lookup t' = some e → e.cell < q.1.allocated
  callCell : ∀ i k t' c, q.1.calls i = some k → k.place = some (t', c) → c < q.1.allocated
  untouched : ∀ c, q.1.allocated ≤ c → q.2.started c = none
  value : ∀ c r, (q.1.cells c).value = some r → q.2.started c ≠ none
  begun : ∀ i k c, q.1.calls i = some k → k.begun c → q.2.started c ≠ none
  entry : ∀ e, q.1.entries.lookup t = some e → ∀ b ∈ q.2.started e.cell, ∀ v ∈ q.2.evicted, v ≤ b
  /-- A call may still be at an evicted cell, if it started before the eviction. -/
  call : ∀ i k c, q.1.calls i = some k → k.place = some (t, c) →
    ∀ b ∈ q.2.started c, ∀ v ∈ q.2.evicted, v ≤ q.2.called i → v ≤ b
  effective : Effective t q

theorem fresh_new : Fresh t (World.new ρ, Timeline.new) where
  past v hv := by cases hv
  called i k hi := by cases hi
  entryCell t' e he := by cases he
  callCell i k t' c hi := by cases hi
  untouched c hc := rfl
  value c r hr := by cases hr
  begun i k c hi := by cases hi
  entry e he := by cases he
  call i k c hi := by cases hi
  effective i k r hi := by cases hi

/-! ## What a step writes down -/

section Note

variable {h : Timeline} {a : Act ρ} {v : ℕ}

theorem Timeline.started_note (c : ℕ) :
    (h.note t s a s').started c = h.started c ∨ (h.note t s a s').started c = some h.now := by
  unfold note
  dsimp only
  split
  · exact .inr rfl
  · exact .inl rfl

theorem Timeline.started_note_ne_none (hc : h.started c ≠ none) :
    (h.note t s a s').started c ≠ none := by
  rcases h.started_note c with heq | heq
  · rwa [heq]
  · rw [heq]
    exact Option.some_ne_none _

theorem Timeline.called_note_of_some {k : Call ρ} (hi : s.calls i = some k) :
    (h.note t s a s').called i = h.called i := by
  simp [note, hi]

theorem Timeline.started_note_of_cells (hc : s'.cells c = s.cells c) :
    (h.note t s a s').started c = h.started c := by
  unfold note
  dsimp only
  rw [hc]
  simp

theorem Timeline.mem_evicted_note (hv : v ∈ (h.note t s a s').evicted) :
    v ∈ h.evicted ∨ v = h.now ∧ a.evicts t = true := by
  unfold note at hv
  dsimp only at hv
  split at hv
  · rename_i ha
    exact (List.mem_cons.mp hv).symm.imp_right fun heq => ⟨heq, ha⟩
  · exact .inl hv

theorem Timeline.mem_evicted_of_note (ha : a.evicts t = false)
    (hv : v ∈ (h.note t s a s').evicted) : v ∈ h.evicted := by
  rcases Timeline.mem_evicted_note hv with hv | ⟨-, hevicts⟩
  · exact hv
  · rw [ha] at hevicts
    cases hevicts

/-- A build that starts now starts after every eviction so far. -/
theorem Timeline.le_of_mem_started_note (hv : v < h.now) (hold : ∀ b ∈ h.started c, v ≤ b) :
    ∀ b ∈ (h.note t s a s').started c, v ≤ b := by
  intro b hb
  rcases h.started_note c with heq | heq
  · exact hold b (heq ▸ hb)
  · obtain rfl := Option.some.inj ((Option.mem_def.mp hb).symm.trans heq)
    exact hv.le

theorem Timeline.given_note_resolved {r : ρ} (hi : s'.calls i = some (.resolved t' c r)) :
    (h.note t s a s').given i = h.started c := by
  unfold note
  dsimp only
  rw [hi]

theorem Timeline.given_note_ok {r : ρ} (hi : s'.calls i = some (.ok t' r)) :
    (h.note t s a s').given i = h.given i := by
  unfold note
  dsimp only
  rw [hi]

end Note

/-- How a call may go on: it stays where it was, or it is new and at a cell that is fresh. -/
inductive GoesOn (t : TenantId) (q : World ρ × Timeline) (a : Act ρ) (s' : World ρ) (i : ℕ)
    (k : Call ρ) : Prop
  | on (k₀ : Call ρ) (before : q.1.calls i = some k₀)
      (place : ∀ p, k.place = some p → k₀.place = some p)
      (begun : ∀ c, k.begun c → q.2.started c ≠ none ∨
        (q.1.cells c).initialiser = none ∧ (s'.cells c).initialiser ≠ none ∧
          ∀ t' r, k ≠ .resolved t' c r)
      (given : ∀ t' r, k = .ok t' r → k₀.given t' r)
  | new (t' : TenantId) (c : ℕ) (none : q.1.calls i = none) (eq : k = .waiting t' c)
      (lt : c < s'.allocated) (cells : s'.cells c = q.1.cells c) (calm : a.evicts t = false)
      (fresh : t' = t → ∀ b ∈ q.2.started c, ∀ v ∈ q.2.evicted, v ≤ b)

/-- What a step may do to the registry. -/
structure Keeps (t : TenantId) (q : World ρ × Timeline) (a : Act ρ) (s' : World ρ) : Prop where
  allocated : q.1.allocated ≤ s'.allocated
  cells : ∀ c, s'.allocated ≤ c → s'.cells c = q.1.cells c
  value : ∀ c r, (s'.cells c).value = some r → q.2.started c ≠ none
  entryCell : ∀ t' e, s'.entries.lookup t' = some e → e.cell < s'.allocated
  entry : ∀ e, s'.entries.lookup t = some e → a.evicts t = false ∧
    ∀ b ∈ q.2.started e.cell, ∀ v ∈ q.2.evicted, v ≤ b
  call : ∀ i k, s'.calls i = some k → GoesOn t q a s' i k

theorem Fresh.next {h : Timeline} (hs : Fresh t (s, h)) (hk : Keeps t (s, h) a s') :
    Fresh t (s', h.note t s a s') := by
  have hcalled : ∀ i, h.called i < h.now → (h.note t s a s').called i ≤ h.now := by
    intro i hi
    unfold Timeline.note
    dsimp only
    split <;> omega
  -- A call that was there before started before any eviction of this step.
  have hold : ∀ {i k₀ v}, s.calls i = some k₀ → v ∈ (h.note t s a s').evicted →
      v ≤ (h.note t s a s').called i → v ∈ h.evicted ∧ v ≤ h.called i := by
    intro i k₀ v hi hv hle
    rw [Timeline.called_note_of_some hi] at hle
    refine ⟨(Timeline.mem_evicted_note hv).resolve_right fun ⟨heq, _⟩ => ?_, hle⟩
    have := hs.called i k₀ hi
    dsimp only at this
    omega
  refine ⟨fun v hv => ?_, fun i k hi => ?_, hk.entryCell, fun i k t' c hi hplace => ?_,
    fun c hc => ?_, fun c r hr => Timeline.started_note_ne_none (hk.value c r hr),
    fun i k c hi hbegun => ?_, fun e he b hb v hv => ?_, fun i k c hi hplace b hb v hv hle => ?_,
    fun i k r hi hgiven => ?_⟩
  · show v < h.now + 1
    rcases Timeline.mem_evicted_note hv with hv | ⟨rfl, -⟩
    · exact Nat.lt_succ_of_lt (hs.past v hv)
    · exact Nat.lt_succ_self _
  · show (h.note t s a s').called i < h.now + 1
    cases hk.call i k hi with
    | on k₀ before => exact Nat.lt_succ_of_le (hcalled i (hs.called i k₀ before))
    | new t' c none =>
      unfold Timeline.note
      dsimp only at none ⊢
      rw [none, hi]
      exact Nat.lt_succ_self _
  · cases hk.call i k hi with
    | on k₀ before place => exact (hs.callCell i k₀ t' c before (place _ hplace)).trans_le hk.allocated
    | new t₁ c₁ none eq lt =>
      subst eq
      cases hplace
      exact lt
  · rw [Timeline.started_note_of_cells (hk.cells c hc)]
    exact hs.untouched c (hk.allocated.trans hc)
  · cases hk.call i k hi with
    | on k₀ before place begun =>
      rcases begun c hbegun with hstarted | ⟨hidle, hbusy, -⟩
      · exact Timeline.started_note_ne_none hstarted
      · show (h.note t s a s').started c ≠ none
        unfold Timeline.note
        dsimp only at hidle ⊢
        rw [hidle]
        simp [Option.isSome_iff_ne_none.mpr hbusy]
    | new t₁ c₁ none eq => subst eq; cases hbegun
  · obtain ⟨hnot, hfresh⟩ := hk.entry e he
    have hv' := Timeline.mem_evicted_of_note hnot hv
    exact Timeline.le_of_mem_started_note (hs.past v hv') (fun b hb => hfresh b hb v hv') b hb
  · cases hk.call i k hi with
    | on k₀ before place =>
      obtain ⟨hv', hle'⟩ := hold before hv hle
      exact Timeline.le_of_mem_started_note (hs.past v hv')
        (fun b hb => hs.call i k₀ c before (place _ hplace) b hb v hv' hle') b hb
    | new t₁ c₁ none eq lt cells calm fresh =>
      subst eq
      cases hplace
      have hsame := h.started_note_of_cells (t := t) (a := a) cells
      exact fresh rfl b (hsame ▸ hb) v (Timeline.mem_evicted_of_note calm hv)
  · cases hk.call i k hi with
    | on k₀ before place begun given =>
      cases k with
      | resolved t' c r' =>
        obtain ⟨rfl, rfl⟩ := hgiven
        have hstarted : h.started c ≠ none :=
          (begun c rfl).resolve_right fun ⟨_, _, hne⟩ => hne t' r' rfl
        obtain ⟨b, hb⟩ := Option.ne_none_iff_exists'.mp hstarted
        refine ⟨b, (Timeline.given_note_resolved hi).trans hb, fun v hv hle => ?_⟩
        obtain ⟨hv', hle'⟩ := hold before hv hle
        exact hs.call i k₀ c before (place _ rfl) b hb v hv' hle'
      | ok t' r' =>
        obtain ⟨rfl, rfl⟩ := hgiven
        obtain ⟨b, hb, hbound⟩ := hs.effective i k₀ r' before (given t' r' rfl)
        refine ⟨b, (Timeline.given_note_ok hi).trans hb, fun v hv hle => ?_⟩
        obtain ⟨hv', hle'⟩ := hold before hv hle
        exact hbound v hv' hle'
      | waiting t' c => cases hgiven
      | building t' c => cases hgiven
      | failed t' c => cases hgiven
      | err t' => cases hgiven
    | new t₁ c₁ none eq =>
      subst eq
      cases hgiven

/-! ## Every step that revives nothing -/

/-- A call that no step touches. -/
theorem GoesOn.same (hq : Fresh t q) (hi : q.1.calls i = some k) : GoesOn t q a s' i k := by
  refine .on k hi (fun _ hp => hp) (fun c hc => .inl (hq.begun i k c hi hc)) fun _ _ heq => ?_
  rw [heq]
  exact ⟨rfl, rfl⟩

/-- One call goes on and the others stay. -/
theorem GoesOn.setCall {u : World ρ} (hq : Fresh t q) (hcalls : u.calls = q.1.calls)
    (hk : GoesOn t q a (u.setCall i k) i k) :
    ∀ j k', (u.setCall i k).calls j = some k' → GoesOn t q a (u.setCall i k) j k' := by
  intro j k' hj
  rw [World.calls_setCall, hcalls] at hj
  split at hj
  · rename_i hji
    subst hji
    obtain rfl := Option.some.inj hj
    exact hk
  · exact .same hq hj

variable {h : Timeline}

section

variable (hs : Fresh t (s, h))
include hs

theorem Keeps.refl (ha : a.evicts t = false) :
    Keeps t (s, h) a s where
  allocated := Nat.le_refl _
  cells _ _ := rfl
  value := hs.value
  entryCell := hs.entryCell
  entry e he := ⟨ha, hs.entry e he⟩
  call _ _ hi := .same hs hi

theorem keeps_getOrBuild (t' : TenantId) (hi : s.calls i = none) :
    Keeps t (s, h) (.getOrBuild i t') (s.getOrBuild i t') := by
  unfold World.getOrBuild
  split
  · rename_i e he
    refine ⟨Nat.le_refl _, fun c hc => rfl, hs.value, hs.entryCell,
      fun e he => ⟨rfl, hs.entry e he⟩, GoesOn.setCall hs rfl ?_⟩
    exact .new t' e.cell hi rfl (hs.entryCell t' e he) rfl rfl fun ht => hs.entry e (ht ▸ he)
  · rename_i hnone
    -- The cell is new: no build in it has started.
    have huntouched : h.started s.allocated = none := hs.untouched _ (Nat.le_refl _)
    refine ⟨Nat.le_succ _, fun c hc => rfl, hs.value, fun t₁ e he => ?_, fun e he => ⟨rfl, ?_⟩,
      GoesOn.setCall hs rfl ?_⟩
    · change (s.entries.insert t' ⟨s.allocated, s.tick⟩).lookup t₁ = some e at he
      show e.cell < s.allocated + 1
      by_cases ht : t₁ = t'
      · subst ht
        rw [AList.lookup_insert] at he
        obtain rfl := Option.some.inj he
        exact Nat.lt_succ_self _
      · rw [AList.lookup_insert_ne ht] at he
        exact Nat.lt_succ_of_lt (hs.entryCell t₁ e he)
    · change (s.entries.insert t' ⟨s.allocated, s.tick⟩).lookup t = some e at he
      by_cases ht : t = t'
      · subst ht
        rw [AList.lookup_insert] at he
        obtain rfl := Option.some.inj he
        intro b hb
        rw [huntouched] at hb
        cases hb
      · rw [AList.lookup_insert_ne ht] at he
        exact hs.entry e he
    · refine .new t' s.allocated hi rfl (Nat.lt_succ_self _) rfl rfl fun _ b hb => ?_
      rw [huntouched] at hb
      cases hb

theorem keeps_turn (hi : s.calls i = some (.waiting t' c)) :
    Keeps t (s, h) (.turn i) (s.turn i t' c) := by
  unfold World.turn
  split
  · rename_i r hr
    refine ⟨Nat.le_refl _, fun c hc => rfl, hs.value, hs.entryCell,
      fun e he => ⟨rfl, hs.entry e he⟩, GoesOn.setCall hs rfl ?_⟩
    refine .on _ hi (fun p hp => hp) (fun c' hc' => .inl ?_) fun t₁ r₁ heq => by cases heq
    obtain rfl : c = c' := hc'
    exact hs.value c r hr
  · split
    · exact .refl hs rfl
    · rename_i hempty _ hidle
      have hlt : c < s.allocated := hs.callCell i _ t' c hi rfl
      refine ⟨Nat.le_refl _, fun c' hc' => ?_, fun c' r hr => ?_, hs.entryCell,
        fun e he => ⟨rfl, hs.entry e he⟩, GoesOn.setCall hs rfl ?_⟩
      · exact Function.update_of_ne (hlt.trans_le hc').ne' _ _
      · change (Function.update s.cells c ⟨none, some i⟩ c').value = some r at hr
        by_cases hc : c' = c
        · rw [hc, Function.update_self] at hr
          cases hr
        · rw [Function.update_of_ne hc] at hr
          exact hs.value c' r hr
      · refine .on _ hi (fun p hp => hp) (fun c' hc' => .inr ?_) fun t₁ r₁ heq => by cases heq
        obtain rfl : c = c' := hc'
        refine ⟨hidle, ?_, fun t₁ r₁ heq => by cases heq⟩
        show (Function.update s.cells c ⟨none, some i⟩ c).initialiser ≠ none
        rw [Function.update_self]
        exact Option.some_ne_none _

theorem keeps_build {outcome : Option ρ}
    (hi : s.calls i = some (.building t' c)) :
    Keeps t (s, h) (.build i outcome) (s.build i t' c outcome) := by
  have hlt : c < s.allocated := hs.callCell i _ t' c hi rfl
  have hstarted : h.started c ≠ none := hs.begun i _ c hi rfl
  have hcells : ∀ o : OnceCell ρ, ∀ c' r, (Function.update s.cells c o c').value = some r →
      h.started c' ≠ none := by
    intro o c' r hr
    by_cases hc : c' = c
    · rwa [hc]
    · rw [Function.update_of_ne hc] at hr
      exact hs.value c' r hr
  cases outcome with
  | some r =>
    refine ⟨Nat.le_refl _, fun c' hc' => Function.update_of_ne (hlt.trans_le hc').ne' _ _,
      hcells _, hs.entryCell, fun e he => ⟨rfl, hs.entry e he⟩, GoesOn.setCall hs rfl ?_⟩
    refine .on _ hi (fun p hp => hp) (fun c' hc' => .inl ?_) fun t₁ r₁ heq => by cases heq
    obtain rfl : c = c' := hc'
    exact hstarted
  | none =>
    refine ⟨Nat.le_refl _, fun c' hc' => Function.update_of_ne (hlt.trans_le hc').ne' _ _,
      hcells _, hs.entryCell, fun e he => ⟨rfl, hs.entry e he⟩, GoesOn.setCall hs rfl ?_⟩
    exact .on _ hi (fun p hp => hp) (fun c' hc' => by cases hc') fun t₁ r₁ heq => by cases heq

theorem keeps_forgetFailed (hi : s.calls i = some (.failed t' c)) :
    Keeps t (s, h) (.forgetFailed i) (s.forgetFailed i t' c) := by
  have hentry : ∀ t₁ e, (if s.ours t' c then s.entries.erase t' else s.entries).lookup t₁ = some e →
      s.entries.lookup t₁ = some e := by
    intro t₁ e he
    split at he
    · by_cases ht : t₁ = t'
      · rw [ht, AList.lookup_erase] at he
        cases he
      · rwa [AList.lookup_erase_ne ht] at he
    · exact he
  refine ⟨Nat.le_refl _, fun c' hc' => rfl, hs.value,
    fun t₁ e he => hs.entryCell t₁ e (hentry t₁ e he),
    fun e he => ⟨rfl, hs.entry e (hentry t e he)⟩, GoesOn.setCall hs rfl ?_⟩
  exact .on _ hi (fun p hp => by cases hp) (fun c' hc' => by cases hc') fun t₁ r₁ heq => by cases heq

theorem keeps_touchAndEvict {r : ρ} {n : ℕ} {rank : TenantId → ℕ}
    (hi : s.calls i = some (.resolved t' c r)) (hr : ¬ Revives t (s, h) (.touchAndEvict i rank)) :
    Keeps t (s, h) (.touchAndEvict i rank) (s.touchAndEvict n i t' c r rank) := by
  -- An entry behind the loop was there before, or is the one the call put back.
  have hentry : ∀ t₁ e, (trim n s.initialized t' rank (s.touched t' c)).lookup t₁ = some e →
      (∃ e₀, s.entries.lookup t₁ = some e₀ ∧ e₀.cell = e.cell) ∨
        t₁ = t' ∧ s.entries.lookup t' = none ∧ e.cell = c := by
    intro t₁ e he
    have hmem : t₁ ∈ trim n s.initialized t' rank (s.touched t' c) :=
      AList.lookup_isSome.mp (by rw [he]; rfl)
    rw [lookup_trim_of_mem hmem, World.touched] at he
    by_cases ht : t₁ = t'
    · subst ht
      rw [AList.lookup_insert] at he
      obtain rfl := Option.some.inj he
      cases hlookup : s.entries.lookup t₁ with
      | none => exact .inr ⟨rfl, rfl, rfl⟩
      | some e₀ => exact .inl ⟨e₀, rfl, rfl⟩
    · rw [AList.lookup_insert_ne ht] at he
      exact .inl ⟨e, he, rfl⟩
  have hlt : c < s.allocated := hs.callCell i _ t' c hi rfl
  refine ⟨Nat.le_refl _, fun c' hc' => rfl, hs.value, fun t₁ e he => ?_, fun e he => ⟨rfl, ?_⟩,
    GoesOn.setCall hs rfl ?_⟩
  · rcases hentry t₁ e he with ⟨e₀, he₀, hcell⟩ | ⟨-, -, hcell⟩
    · exact hcell ▸ hs.entryCell t₁ e₀ he₀
    · exact hcell ▸ hlt
  · intro b hb v hv
    rcases hentry t e he with ⟨e₀, he₀, hcell⟩ | ⟨rfl, hnone, hcell⟩
    · exact hs.entry e₀ he₀ b (hcell ▸ hb) v hv
    · by_contra hstale
      exact hr ⟨i, rank, c, r, rfl, hi, AList.lookup_eq_none.mp hnone, b, hcell ▸ hb, v, hv,
        Nat.lt_of_not_le hstale⟩
  · refine .on _ hi (fun p hp => by cases hp) (fun c' hc' => by cases hc') fun t₁ r₁ heq => ?_
    cases heq
    exact ⟨rfl, rfl⟩

/-- An eviction only takes entries away. -/
theorem keeps_entries {m : Entries}
    (hm : ∀ t₁ e, m.lookup t₁ = some e → s.entries.lookup t₁ = some e)
    (ht : a.evicts t = true → m.lookup t = none) :
    Keeps t (s, h) a { s with entries := m } where
  allocated := Nat.le_refl _
  cells _ _ := rfl
  value := hs.value
  entryCell t₁ e he := hs.entryCell t₁ e (hm t₁ e he)
  entry e he := by
    refine ⟨Bool.eq_false_iff.mpr fun ha => ?_, hs.entry e (hm t e he)⟩
    rw [show m.lookup t = some e from he] at ht
    cases ht ha
  call _ _ hi := .same hs hi

end

theorem Fresh.step (hq : Fresh t q) (hr : ¬ Revives t q a) :
    Fresh t (withHistory (World.step R) (Timeline.note t) q a) := by
  obtain ⟨s, h⟩ := q
  refine hq.next ?_
  show Keeps t (s, h) a (s.step R a)
  cases a with
  | getOrBuild i t' =>
    simp only [World.step]
    split
    · rename_i hi
      exact keeps_getOrBuild hq t' hi
    · exact .refl hq rfl
  | turn i =>
    simp only [World.step]
    split
    · rename_i t' c hi
      exact keeps_turn hq hi
    · exact .refl hq rfl
  | build i outcome =>
    simp only [World.step]
    split
    · rename_i t' c hi
      exact keeps_build hq hi
    · exact .refl hq rfl
  | forgetFailed i =>
    simp only [World.step]
    split
    · rename_i t' c hi
      exact keeps_forgetFailed hq hi
    · exact .refl hq rfl
  | touchAndEvict i rank =>
    simp only [World.step]
    split
    · rename_i t' c r hi
      exact keeps_touchAndEvict hq hi hr
    · exact .refl hq rfl
  | evict t' =>
    refine keeps_entries hq (fun t₁ e he => ?_) fun ha => ?_
    · by_cases ht : t₁ = t'
      · rw [ht, AList.lookup_erase] at he
        cases he
      · rwa [AList.lookup_erase_ne ht] at he
    · have ht : t' = t := of_decide_eq_true ha
      rw [ht, AList.lookup_erase]
  | evictAll => exact keeps_entries hq (fun t₁ e he => by cases he) fun _ => rfl
  | evictIdle keep =>
    refine keeps_entries hq (fun t₁ e he => ?_) fun ha => by cases ha
    have hmem : t₁ ∈ s.idleKept keep := AList.lookup_isSome.mp (by rw [he]; rfl)
    rwa [lookup_idleKept hmem] at he

/-- While no call puts back a cell that an eviction ended, whoever asks after an eviction is given a
runtime that was built after it. -/
theorem eviction_effective (R : TenantRegistry) (t : TenantId) {acts : List (Act ρ)}
    (hkeep : Along (withHistory (World.step R) (Timeline.note t)) (fun q a => ¬ Revives t q a)
      (World.new ρ, Timeline.new) acts) :
    Effective t
      (run (withHistory (World.step R) (Timeline.note t)) (World.new ρ, Timeline.new) acts) := by
  have hfresh : Fresh t
      (run (withHistory (World.step R) (Timeline.note t)) (World.new ρ, Timeline.new) acts) :=
    invariant_along (withHistory (World.step R) (Timeline.note t)) (I := Fresh t)
      (fun _ _ hq hr => hq.step hr) fresh_new hkeep
  exact hfresh.effective

/-- A tenant is built and evicted, and built again for the next request. -/
def evictedAndRebuilt : List (Act ℕ) :=
  [.getOrBuild 0 "acme", .turn 0, .build 0 (some 7), .touchAndEvict 0 (fun _ => 0), .evict "acme",
    .getOrBuild 1 "acme", .turn 1, .build 1 (some 8), .touchAndEvict 1 (fun _ => 0)]

/-- The tenant has an entry whenever a call of it is in its last phase. -/
def touchesEntry (t : TenantId) (q : World ℕ × Timeline) : Act ℕ → Bool
  | .touchAndEvict _ _ => q.1.entries.keys.contains t
  | _ => true

theorem eviction_effective_rebuilt :
    Effective "acme" (run (withHistory (World.step oneSeat) (Timeline.note "acme"))
      (World.new ℕ, Timeline.new) evictedAndRebuilt) := by
  have htouches : Along (withHistory (World.step oneSeat) (Timeline.note "acme"))
      (fun q a => touchesEntry "acme" q a = true) (World.new ℕ, Timeline.new) evictedAndRebuilt := by
    decide +kernel
  refine eviction_effective oneSeat "acme" (htouches.mono _ ?_)
  rintro q a htouch ⟨i, rank, c, r, rfl, -, hgone, -⟩
  have hmem : "acme" ∈ q.1.entries.keys := by simpa [touchesEntry] using htouch
  exact hgone (AList.mem_keys.mpr hmem)

/-- The tenant is evicted after its runtime was built and before the call that built it is done. -/
def evictedMeanwhile : List (Act ℕ) :=
  [.getOrBuild 0 "acme", .turn 0, .build 0 (some 7), .evict "acme", .touchAndEvict 0 (fun _ => 0),
    .getOrBuild 1 "acme", .turn 1]

/-- The call puts the evicted runtime back, and the next request is given it. -/
theorem not_effective :
    ¬ Effective "acme" (run (withHistory (World.step oneSeat) (Timeline.note "acme"))
      (World.new ℕ, Timeline.new) evictedMeanwhile) := by
  intro h
  obtain ⟨b, hb, hbound⟩ := h 1 (.resolved "acme" 0 7) 7 (by decide +kernel) ⟨rfl, rfl⟩
  have hstart : b = 1 := by
    have : (run (withHistory (World.step oneSeat) (Timeline.note "acme"))
        (World.new ℕ, Timeline.new) evictedMeanwhile).2.given 1 = some 1 := by decide +kernel
    exact Option.some.inj (hb.symm.trans this)
  have := hbound 3 (by decide +kernel) (by decide +kernel)
  omega

end Backbone.Tenant
