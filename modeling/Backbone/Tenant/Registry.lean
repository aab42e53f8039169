import Mathlib.Data.List.AList
import Mathlib.Data.List.MinMax
import Mathlib.Data.Prod.Lex
import Backbone.Lib.Run

/-!
# The registry of tenant runtimes

`TenantRegistry` caches one runtime for each tenant. `get_or_build` runs in three phases: the tenant's
`OnceCell` is looked up under the lock, the runtime is built in the cell without it, and under the lock
again the tenant is marked as resolved and the registry trimmed to its capacity, or the entry of a
failed build is dropped. The calls interleave phase by phase.

A cell is named by the order of its allocation, and is new until then. The counter `tick` is a `u64`
that one successful resolve advances by one; here it is a natural number.

Reference: `backbone-tenant/src/lib.rs`.
-/

namespace Backbone.Tenant

/-- `TenantRegistry`: its capacity. A registry that can hold nothing is not made. -/
structure TenantRegistry where
  maxTenants : ℕ
  pos : 0 < maxTenants

/-- `TenantId`. -/
abbrev TenantId := String

/-- `Entry`: which cell it holds, and the access tick. -/
structure Entry where
  cell : ℕ
  last : ℕ
deriving DecidableEq, Repr

/-- `HashMap<TenantId, Entry>`. -/
abbrev Entries := AList fun _ : TenantId => Entry

/-- `tokio::sync::OnceCell`: what it holds, and the call that runs its initialiser. -/
structure OnceCell (ρ : Type) where
  value : Option ρ
  initialiser : Option ℕ
deriving DecidableEq, Repr

/-- `OnceCell::new`. -/
def OnceCell.new {ρ : Type} : OnceCell ρ := ⟨none, none⟩

/-- How far a call of `get_or_build` is. -/
inductive Call (ρ : Type) where
  /-- It holds the cell and waits in `get_or_try_init`. -/
  | waiting (tenant : TenantId) (cell : ℕ)
  /-- It runs `factory.build`. -/
  | building (tenant : TenantId) (cell : ℕ)
  /-- Its build failed. -/
  | failed (tenant : TenantId) (cell : ℕ)
  /-- It was given the runtime of the cell. -/
  | resolved (tenant : TenantId) (cell : ℕ) (runtime : ρ)
  /-- It returned `Ok`. -/
  | ok (tenant : TenantId) (runtime : ρ)
  /-- It returned `RegistryError::Build`. -/
  | err (tenant : TenantId)
deriving DecidableEq, Repr

/-- The call has returned. -/
def Call.returned {ρ : Type} : Call ρ → Bool
  | .ok _ _ | .err _ => true
  | _ => false

/-- A registry among its calls: `Inner`, the cells that were allocated, and every call there was. -/
structure World (ρ : Type) where
  entries : Entries
  tick : ℕ
  cells : ℕ → OnceCell ρ
  allocated : ℕ
  calls : ℕ → Option (Call ρ)

/-- `TenantRegistry::new`, before its first call. -/
def World.new (ρ : Type) : World ρ where
  entries := ∅
  tick := 0
  cells := fun _ => .new
  allocated := 0
  calls := fun _ => none

namespace World

variable {ρ : Type}

/-- `OnceCell::initialized`. -/
def initialized (s : World ρ) (c : ℕ) : Bool := (s.cells c).value.isSome

def setCall (s : World ρ) (i : ℕ) (k : Call ρ) : World ρ :=
  { s with calls := Function.update s.calls i (some k) }

def setCell (s : World ρ) (c : ℕ) (o : OnceCell ρ) : World ρ :=
  { s with cells := Function.update s.cells c o }

end World

/-! ## Eviction -/

/-- The entries whose cell is built, of tenants other than `tenant`. -/
def candidates (built : ℕ → Bool) (tenant : TenantId) (m : Entries) :
    List (Sigma fun _ : TenantId => Entry) :=
  m.entries.filter fun e => e.1 != tenant && built e.2.cell

/-- How many entries are built. -/
def resident (built : ℕ → Bool) (m : Entries) : ℕ := m.entries.countP fun e => built e.2.cell

/-- The least recently used candidate. Among several, `min_by_key` takes the first of the map's
iteration order, which is arbitrary: `rank` orders the tenants. -/
def victim (built : ℕ → Bool) (tenant : TenantId) (rank : TenantId → ℕ) (m : Entries) :
    Option TenantId :=
  ((candidates built tenant m).argmin fun e => toLex (e.2.last, rank e.1)).map (·.1)

/-- The evictions of the loop in `touch_and_evict`, each with the map it finds. -/
def evictions (maxTenants : ℕ) (built : ℕ → Bool) (tenant : TenantId) (rank : TenantId → ℕ) :
    ℕ → Entries → List (Entries × TenantId)
  | 0, _ => []
  | passes + 1, m =>
    if resident built m ≤ maxTenants then []
    else
      match victim built tenant rank m with
      | some id => (m, id) :: evictions maxTenants built tenant rank passes (m.erase id)
      | none => []

/-- The map behind the loop. Each pass removes an entry, so that as many passes as entries are
enough. -/
def trim (maxTenants : ℕ) (built : ℕ → Bool) (tenant : TenantId) (rank : TenantId → ℕ)
    (m : Entries) : Entries :=
  (evictions maxTenants built tenant rank m.entries.length m).foldl (fun m e => m.erase e.2) m

/-! ## Steps -/

/-- What can happen next: a phase of a call, with what the environment chooses in it, or an eviction
by hand. -/
inductive Act (ρ : Type) where
  /-- Phase 1 of the call `i`. -/
  | getOrBuild (i : ℕ) (tenant : TenantId)
  /-- The call `i` finds its cell initialised, or takes the turn to initialise it. -/
  | turn (i : ℕ)
  /-- The factory answers the call `i`. -/
  | build (i : ℕ) (outcome : Option ρ)
  | forgetFailed (i : ℕ)
  | touchAndEvict (i : ℕ) (rank : TenantId → ℕ)
  | evict (tenant : TenantId)
  | evictAll
  | evictIdle (keep : ℕ)

namespace World

variable {ρ : Type} (s : World ρ)

/-- Phase 1: find or create the tenant's cell. -/
def getOrBuild (i : ℕ) (tenant : TenantId) : World ρ :=
  match s.entries.lookup tenant with
  | some e => s.setCall i (.waiting tenant e.cell)
  | none =>
    { s with
        entries := s.entries.insert tenant ⟨s.allocated, s.tick⟩
        allocated := s.allocated + 1 }.setCall i (.waiting tenant s.allocated)

/-- Phase 2: an initialised cell answers; an idle one lets the call run its own initialiser. -/
def turn (i : ℕ) (tenant : TenantId) (c : ℕ) : World ρ :=
  match (s.cells c).value with
  | some r => s.setCall i (.resolved tenant c r)
  | none =>
    match (s.cells c).initialiser with
    | some _ => s
    | none => (s.setCell c ⟨none, some i⟩).setCall i (.building tenant c)

/-- The initialiser ends. On error the cell stays empty. -/
def build (i : ℕ) (tenant : TenantId) (c : ℕ) : Option ρ → World ρ
  | some r => (s.setCell c ⟨some r, none⟩).setCall i (.resolved tenant c r)
  | none => (s.setCell c ⟨none, none⟩).setCall i (.failed tenant c)

/-- `forget_failed`: does the entry hold the cell of the failed build, and is it still empty? -/
def ours (tenant : TenantId) (c : ℕ) : Bool :=
  (s.entries.lookup tenant).any fun e => e.cell == c && !s.initialized e.cell

def forgetFailed (i : ℕ) (tenant : TenantId) (c : ℕ) : World ρ :=
  { s with entries := if s.ours tenant c then s.entries.erase tenant else s.entries }.setCall i
    (.err tenant)

/-- The entry of a resolved tenant. A failed caller may have removed it, and then it is put back. -/
def touched (tenant : TenantId) (c : ℕ) : Entries :=
  s.entries.insert tenant ⟨((s.entries.lookup tenant).map (·.cell)).getD c, s.tick + 1⟩

/-- `touch_and_evict`. -/
def touchAndEvict (maxTenants : ℕ) (i : ℕ) (tenant : TenantId) (c : ℕ) (r : ρ)
    (rank : TenantId → ℕ) : World ρ :=
  { s with
      tick := s.tick + 1
      entries := trim maxTenants s.initialized tenant rank (s.touched tenant c) }.setCall i
    (.ok tenant r)

/-- `evict_idle`: keep the entries with an access tick within `keep` of the newest. -/
def idleKept (keep : ℕ) : Entries :=
  ⟨s.entries.entries.filter fun e => decide (s.tick - keep ≤ e.2.last),
    s.entries.nodupKeys.sublist List.filter_sublist⟩

/-- One step; what cannot happen leaves the world as it is. -/
def step (R : TenantRegistry) (s : World ρ) : Act ρ → World ρ
  | .getOrBuild i tenant =>
    match s.calls i with
    | none => s.getOrBuild i tenant
    | some _ => s
  | .turn i =>
    match s.calls i with
    | some (.waiting tenant c) => s.turn i tenant c
    | _ => s
  | .build i outcome =>
    match s.calls i with
    | some (.building tenant c) => s.build i tenant c outcome
    | _ => s
  | .forgetFailed i =>
    match s.calls i with
    | some (.failed tenant c) => s.forgetFailed i tenant c
    | _ => s
  | .touchAndEvict i rank =>
    match s.calls i with
    | some (.resolved tenant c r) => s.touchAndEvict R.maxTenants i tenant c r rank
    | _ => s
  | .evict tenant => { s with entries := s.entries.erase tenant }
  | .evictAll => { s with entries := ∅ }
  | .evictIdle keep => { s with entries := s.idleKept keep }

@[simp] theorem initialized_setCall (i : ℕ) (k : Call ρ) :
    (s.setCall i k).initialized = s.initialized := rfl

@[simp] theorem calls_setCell (c : ℕ) (o : OnceCell ρ) : (s.setCell c o).calls = s.calls := rfl

theorem calls_setCall (i j : ℕ) (k : Call ρ) :
    (s.setCall i k).calls j = if j = i then some k else s.calls j := by
  by_cases h : j = i
  · subst h
    simp [setCall]
  · simp [setCall, h]

end World

/-! ## What the loop evicts -/

section Trim

variable {maxTenants : ℕ} {built : ℕ → Bool} {tenant : TenantId} {rank : TenantId → ℕ} {m : Entries}
  {e : Sigma fun _ : TenantId => Entry} {id : TenantId} {passes : ℕ}

theorem mem_candidates :
    e ∈ candidates built tenant m ↔ e ∈ m.entries ∧ e.1 ≠ tenant ∧ built e.2.cell = true := by
  simp [candidates]

/-- The victim is a candidate with the least access tick. -/
theorem victim_spec (h : victim built tenant rank m = some id) :
    ∃ e ∈ candidates built tenant m, e.1 = id ∧
      ∀ e' ∈ candidates built tenant m, e.2.last ≤ e'.2.last := by
  obtain ⟨e, he, rfl⟩ := Option.map_eq_some_iff.mp h
  refine ⟨e, List.argmin_mem he, rfl, fun e' he' => ?_⟩
  have hle := List.le_of_mem_argmin he' he
  exact (Prod.Lex.le_iff.mp hle).elim le_of_lt fun h => h.1.le

theorem victim_ne (h : victim built tenant rank m = some id) : id ≠ tenant := by
  obtain ⟨e, he, rfl, -⟩ := victim_spec h
  exact (mem_candidates.mp he).2.1

/-- Every eviction finds a map over capacity and takes its victim. -/
theorem of_mem_evictions {m' : Entries}
    (h : (m', id) ∈ evictions maxTenants built tenant rank passes m) :
    maxTenants < resident built m' ∧ victim built tenant rank m' = some id := by
  induction passes generalizing m with
  | zero => simp [evictions] at h
  | succ passes ih =>
    unfold evictions at h
    split at h
    · simp at h
    · rename_i hover
      split at h
      · rename_i id' hvictim
        rcases List.mem_cons.mp h with heq | hrest
        · cases heq
          exact ⟨by omega, hvictim⟩
        · exact ih hrest
      · simp at h

theorem lookup_foldl_erase (evs : List (Entries × TenantId)) (m : Entries) (k : TenantId) :
    (evs.foldl (fun m e => m.erase e.2) m).lookup k =
      if k ∈ evs.map (·.2) then none else m.lookup k := by
  induction evs generalizing m with
  | nil => simp
  | cons e evs ih =>
    rw [List.foldl_cons, ih]
    by_cases hk : k = e.2
    · subst hk
      simp
    · rw [AList.lookup_erase_ne hk]
      simp only [List.map_cons, List.mem_cons, hk, false_or]

/-- The map behind the loop is the map before it without the victims. -/
theorem lookup_trim (m : Entries) (k : TenantId) :
    (trim maxTenants built tenant rank m).lookup k =
      if k ∈ (evictions maxTenants built tenant rank m.entries.length m).map (·.2) then none
      else m.lookup k :=
  lookup_foldl_erase _ m k

theorem lookup_trim_of_mem {k : TenantId} (h : k ∈ trim maxTenants built tenant rank m) :
    (trim maxTenants built tenant rank m).lookup k = m.lookup k := by
  rw [lookup_trim]
  refine if_neg fun hmem => ?_
  have hnone : (trim maxTenants built tenant rank m).lookup k = none := by
    rw [lookup_trim, if_pos hmem]
  exact AList.lookup_eq_none.mp hnone h

/-- The tenant being resolved is never the victim. -/
theorem lookup_trim_self (m : Entries) :
    (trim maxTenants built tenant rank m).lookup tenant = m.lookup tenant := by
  rw [lookup_trim, if_neg]
  intro h
  obtain ⟨⟨m', id⟩, hmem, rfl⟩ := List.mem_map.mp h
  exact victim_ne (of_mem_evictions hmem).2 rfl

theorem resident_erase_lt (he : e ∈ m.entries)
    (hbuilt : built e.2.cell = true) : resident built (m.erase e.1) < resident built m := by
  have hsub : List.Sublist ((m.erase e.1).entries.filter fun e => built e.2.cell)
      (m.entries.filter fun e => built e.2.cell) := (List.kerase_sublist _ _).filter _
  have hnot : e ∉ (m.erase e.1).entries := by
    intro hmem
    have : e.1 ∈ m.erase e.1 := List.mem_keys_of_mem hmem
    simp [AList.mem_erase] at this
  rw [resident, resident, List.countP_eq_length_filter, List.countP_eq_length_filter]
  refine lt_of_le_of_ne hsub.length_le fun hlen => hnot ?_
  have : e ∈ m.entries.filter fun e => built e.2.cell := List.mem_filter.mpr ⟨he, hbuilt⟩
  rw [← hsub.eq_of_length hlen] at this
  exact (List.mem_filter.mp this).1

/-- Over a capacity that is not zero there is a candidate. -/
theorem candidates_ne_nil (hpos : 0 < maxTenants) (hover : maxTenants < resident built m) :
    candidates built tenant m ≠ [] := by
  intro hnil
  -- Only the tenant itself could be built, and it has one entry.
  have hall : ∀ e ∈ m.entries.filter (fun e => built e.2.cell), e.1 = tenant := by
    intro e he
    obtain ⟨hmem, hbuilt⟩ := List.mem_filter.mp he
    by_contra hne
    have := mem_candidates.mpr ⟨hmem, hne, hbuilt⟩
    simp [hnil] at this
  rw [resident, List.countP_eq_length_filter] at hover
  have hnodup : ((m.entries.filter fun e => built e.2.cell).map (·.1)).Nodup :=
    (List.filter_sublist.map _).nodup m.nodupKeys
  rcases hlist : m.entries.filter (fun e => built e.2.cell) with _ | ⟨e, _ | ⟨e', rest⟩⟩
  · simp [hlist] at hover
  · simp [hlist] at hover
    omega
  · rw [hlist] at hnodup hall
    simp [hall e (by simp), hall e' (by simp)] at hnodup

theorem resident_foldl_evictions (hpos : 0 < maxTenants)
    (henough : resident built m ≤ passes) :
    resident built ((evictions maxTenants built tenant rank passes m).foldl
      (fun m e => m.erase e.2) m) ≤ maxTenants := by
  induction passes generalizing m with
  | zero => exact (Nat.le_zero.mp henough).trans_le (Nat.zero_le _)
  | succ passes ih =>
    unfold evictions
    split
    · rename_i hle
      exact hle
    · rename_i hover
      cases hvictim : victim built tenant rank m with
      | none =>
        have hnil : candidates built tenant m = [] :=
          List.argmin_eq_none.mp (Option.map_eq_none_iff.mp hvictim)
        exact absurd hnil (candidates_ne_nil hpos (by omega))
      | some id =>
        obtain ⟨e, he, rfl, -⟩ := victim_spec hvictim
        obtain ⟨hmem, -, hbuilt⟩ := mem_candidates.mp he
        have hless := resident_erase_lt hmem hbuilt
        exact ih (show resident built (m.erase e.1) ≤ passes by omega)

/-- The loop brings the registry back to its capacity. -/
theorem resident_trim_le (hpos : 0 < maxTenants) (m : Entries) :
    resident built (trim maxTenants built tenant rank m) ≤ maxTenants :=
  resident_foldl_evictions hpos (List.countP_le_length)

end Trim

end Backbone.Tenant
