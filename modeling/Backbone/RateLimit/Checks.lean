import Backbone.RateLimit.Isolation

/-!
# Runs of checks in memory

`RateLimiter::check` reads the clock twice: the store reads it behind its lock, and the answer is made
with a later reading. `windowAt` says which window a request would be counted in, and one lemma says
what counting it there does; everything the limiter promises over time is read off these.

Reference: `backbone-rate-limit/src/limiter.rs`, `storage.rs`.
-/

namespace Backbone.RateLimit

open Machine

variable {config : RateLimitConfig} {s : CounterState}

/-! ## One check -/

/-- `RateLimiter::check` with both its readings of the clock. -/
def checkAt {σ : Type} (B : StorageBackend σ) (config : RateLimitConfig) (now later : ℕ)
    (key : String) (s : σ) : Except RateLimitError (RateLimitResponse × σ) :=
  if !config.enabled then
    .ok ({ allowed := true, remaining := config.maxRequests, resetAt := none, message := none,
           currentCount := 0, exceeded := false, lockedUntil := none }, s)
  else do
    let (outcome, s) ← B.increment config now key s
    return (respond config later outcome, s)

/-- A call of `check`: its key, the store's reading of the clock and its own. -/
structure Check where
  key : String
  now : ℕ
  later : ℕ
deriving DecidableEq, Repr

namespace Check

/-- The store after a check. -/
def step (config : RateLimitConfig) (data : InMemoryStorage) (c : Check) : InMemoryStorage :=
  match checkAt inMemoryStorage config c.now c.later c.key data with
  | .ok (_, data) => data
  | .error _ => data

/-- What a check is answered. -/
def answer (config : RateLimitConfig) (data : InMemoryStorage) (c : Check) :
    Except RateLimitError RateLimitResponse :=
  (checkAt inMemoryStorage config c.now c.later c.key data).map (·.1)

/-- Is a check allowed? -/
def allowed (config : RateLimitConfig) (data : InMemoryStorage) (c : Check) : Bool :=
  match c.answer config data with
  | .ok r => r.allowed
  | .error _ => false

/-- The entry of the key once the check is counted. -/
def entry (config : RateLimitConfig) (data : InMemoryStorage) (c : Check) : CounterState :=
  ((data.lookup c.key).getD (.fresh c.now)).next config c.now

section

variable (henabled : config.enabled = true) (data : InMemoryStorage) (c : Check)
include henabled data

theorem checkAt_memory :
    checkAt inMemoryStorage config c.now c.later c.key data =
      .ok (respond config c.later ⟨(c.entry config data).count, (c.entry config data).lockedUntil⟩,
        (swept config c.now c.key data).insert c.key (c.entry config data)) := by
  have hcount : inMemoryStorage.increment config c.now c.key data = _ :=
    inMemory_increment (s := ⟨data, fun _ => none, 0⟩)
  rw [checkAt, henabled, hcount]
  rfl

theorem step_memory :
    c.step config data = (swept config c.now c.key data).insert c.key (c.entry config data) := by
  rw [step, checkAt_memory henabled]

theorem answer_memory :
    c.answer config data = .ok (respond config c.later
      ⟨(c.entry config data).count, (c.entry config data).lockedUntil⟩) := by
  rw [answer, checkAt_memory henabled]
  rfl

theorem lookup_step_self : (c.step config data).lookup c.key = some (c.entry config data) := by
  rw [step_memory henabled, AList.lookup_insert]

/-- A check of another key may sweep this one's entry away, once it does not matter. -/
theorem active_step_other {c : Check}
    {key : String} (hkey : c.key ≠ key) :
    active config c.now ((c.step config data).lookup key) = active config c.now (data.lookup key) := by
  rw [step_memory henabled, AList.lookup_insert_ne hkey.symm, active_lookup_swept]

end

end Check

/-- The readings at which checks of a key are allowed in a run. -/
def allowedReadings (config : RateLimitConfig) (key : String) :
    InMemoryStorage → List Check → List ℕ
  | _, [] => []
  | data, c :: cs =>
    if c.key = key ∧ c.allowed config data then
      c.now :: allowedReadings config key (c.step config data) cs
    else allowedReadings config key (c.step config data) cs

/-- The readings of the clock do not go back: within a check, and from one check to the next where the
store takes them. -/
structure InOrder (cs : List Check) : Prop where
  within : ∀ c ∈ cs, c.now ≤ c.later
  between : cs.Pairwise (·.now ≤ ·.now)

instance (cs : List Check) : Decidable (InOrder cs) :=
  decidable_of_iff ((∀ c ∈ cs, c.now ≤ c.later) ∧ cs.Pairwise (·.now ≤ ·.now))
    ⟨fun h => ⟨h.1, h.2⟩, fun h => ⟨h.within, h.between⟩⟩

/-! ## The window of a request -/

/-- The entry a request at `t` is counted on: that of the running window or a fresh one; none while
the key is locked. -/
def windowAt (config : RateLimitConfig) (t : ℕ) : Option CounterState → Option CounterState
  | none => some (.fresh t)
  | some s =>
    match s.lockedUntil with
    | some u => if t < u then none else some (.fresh t)
    | none => if config.windowSeconds < t - s.windowStart then some (.fresh t) else some s

section Window

variable {config : RateLimitConfig} {t : ℕ} {m : Option CounterState} {e : CounterState} {now : ℕ}

theorem windowAt_of_finished (h : s.unfinished config t = false) :
    windowAt config t (some s) = some (.fresh t) := by
  obtain ⟨count, start, locked⟩ := s
  simp only [CounterState.unfinished, Bool.or_eq_false_iff, decide_eq_false_iff_not,
    Nat.not_le] at h
  cases locked with
  | none => simp [windowAt, h.2]
  | some u =>
    have hover : ¬ t < u := by simpa using h.1
    simp [windowAt, hover]

/-- The window is that of the entry while it matters. -/
theorem windowAt_active (m : Option CounterState) :
    windowAt config t (active config t m) = windowAt config t m := by
  cases m with
  | none => rfl
  | some s =>
    by_cases hs : s.unfinished config t = true
    · simp [active, Option.filter, hs]
    · have hnone : active config t (some s) = none := by simp [active, Option.filter, hs]
      rw [hnone, windowAt_of_finished (Bool.eq_false_iff.mpr hs)]
      rfl

/-- Entries that matter alike at one time open the same windows from then on. -/
theorem windowAt_congr (hle : now ≤ t) {m' : Option CounterState}
    (h : active config now m = active config now m') :
    windowAt config t m = windowAt config t m' := by
  rw [← windowAt_active m, active_mono hle h, windowAt_active]

theorem windowAt_eq_none :
    windowAt config t m = none ↔ ∃ s u, m = some s ∧ s.lockedUntil = some u ∧ t < u := by
  cases m with
  | none => simp [windowAt]
  | some s =>
    cases hlock : s.lockedUntil with
    | none => by_cases hover : config.windowSeconds < t - s.windowStart <;> simp [windowAt, hlock, hover]
    | some u => simp [windowAt, hlock]

/-- Why a window is open: there is no entry, its lock or its window is over, or it is running. -/
inductive OpensWindow (config : RateLimitConfig) (t : ℕ) : Option CounterState → CounterState → Prop
  | unset : OpensWindow config t none (.fresh t)
  | lockOver {s : CounterState} {u : ℕ} : s.lockedUntil = some u → u ≤ t →
      OpensWindow config t (some s) (.fresh t)
  | windowOver {s : CounterState} : s.lockedUntil = none →
      config.windowSeconds < t - s.windowStart → OpensWindow config t (some s) (.fresh t)
  | running {s : CounterState} : s.lockedUntil = none → t - s.windowStart ≤ config.windowSeconds →
      OpensWindow config t (some s) s

theorem opensWindow_of_windowAt (h : windowAt config t m = some e) : OpensWindow config t m e := by
  cases m with
  | none =>
    cases h
    exact .unset
  | some s =>
    cases hlock : s.lockedUntil with
    | none =>
      by_cases hover : config.windowSeconds < t - s.windowStart
      · simp only [windowAt, hlock, hover, ↓reduceIte, Option.some.injEq] at h
        subst h
        exact .windowOver hlock hover
      · simp only [windowAt, hlock, hover, ↓reduceIte, Option.some.injEq] at h
        subst h
        exact .running hlock (Nat.le_of_not_lt hover)
    | some u =>
      by_cases hlt : t < u
      · simp [windowAt, hlock, hlt] at h
      · simp only [windowAt, hlock, hlt, ↓reduceIte, Option.some.injEq] at h
        subst h
        exact .lockOver hlock (Nat.le_of_not_lt hlt)

theorem next_of_locked {u : ℕ} (hu : s.lockedUntil = some u) (hlt : t < u) :
    s.next config t = s := by
  simp [CounterState.next, hu, hlt]

/-- Counting inside a window, with the count kept within a `u64`. -/
theorem countUp_running (hs : s.lockedUntil = none) (hin : t - s.windowStart ≤ config.windowSeconds) :
    s.countUp config t = counted config t s.windowStart (min (s.count + 1) u64Max) := by
  obtain ⟨count, start, locked⟩ := s
  subst hs
  simp only [CounterState.countUp, Nat.not_lt.mpr hin, ↓reduceIte, counted, locks]
  cases config.lockoutSeconds <;> split <;> simp_all

/-- A request is counted in its window. -/
theorem next_of_windowAt (h : windowAt config t m = some e) :
    (m.getD (.fresh t)).next config t =
      counted config t e.windowStart (min (e.count + 1) u64Max) := by
  have hfresh : (CounterState.fresh t).countUp config t =
      counted config t t (min ((CounterState.fresh t).count + 1) u64Max) := countUp_fresh
  cases opensWindow_of_windowAt h with
  | unset => exact hfresh
  | lockOver hlock hle =>
    simpa [CounterState.next, hlock, Nat.not_lt.mpr hle, CounterState.fresh] using hfresh
  | windowOver hlock hover =>
    simp only [Option.getD_some, CounterState.next, hlock]
    rw [countUp_over hlock hover]
    rfl
  | running hlock hin =>
    simp only [Option.getD_some, CounterState.next, hlock]
    exact countUp_running hlock hin

/-- Where a window is open, its start and the request are within its length. -/
theorem windowAt_start (h : windowAt config t m = some e) :
    t - e.windowStart ≤ config.windowSeconds := by
  have hfresh : t - (CounterState.fresh t).windowStart ≤ config.windowSeconds := by
    simp [CounterState.fresh]
  cases opensWindow_of_windowAt h with
  | unset => exact hfresh
  | lockOver => exact hfresh
  | windowOver => exact hfresh
  | running _ hin => exact hin

/-- The windows behind a counted request: none until its lock ends, its own, or a fresh one. -/
theorem windowAt_counted {start n : ℕ} :
    windowAt config t (some (counted config now start n)) =
      match locks config now n with
      | some u => if t < u then none else some (.fresh t)
      | none => if config.windowSeconds < t - start then some (.fresh t)
          else some (counted config now start n) := by
  cases hlock : locks config now n <;> simp [windowAt, counted, hlock]

end Window

/-! ## The answer -/

/-- A locked key has been counted past the limit. -/
def CounterState.OverWhenLocked (config : RateLimitConfig) (s : CounterState) : Prop :=
  ∀ u, s.lockedUntil = some u → config.lockoutSeconds.isSome ∧ config.maxRequests < s.count

theorem overWhenLocked_counted (config : RateLimitConfig) (now start n : ℕ) :
    (counted config now start n).OverWhenLocked config := by
  intro u hu
  obtain ⟨hn, lockout, hl, -⟩ := exists_of_locks hu
  refine ⟨?_, hn⟩
  rw [hl]
  rfl

/-- The count alone decides, whatever the second reading makes of the lock. -/
theorem respond_allowed {later : ℕ} (hs : s.OverWhenLocked config) :
    (respond config later ⟨s.count, s.lockedUntil⟩).allowed = decide (s.count ≤ config.maxRequests) := by
  cases hlock : s.lockedUntil.filter (later < ·) with
  | none =>
    rw [Bool.eq_iff_iff]
    simp [respond, hlock]
  | some u =>
    have hu : s.lockedUntil = some u := (Option.filter_eq_some_iff.mp hlock).1
    have hover := (hs u hu).2
    simp [respond, hlock, hover]

/-- No entry of a store is locked below the limit. -/
def OverWhenLocked (config : RateLimitConfig) (data : InMemoryStorage) : Prop :=
  ∀ k, ∀ s ∈ data.lookup k, s.OverWhenLocked config

theorem overWhenLocked_empty (config : RateLimitConfig) : OverWhenLocked config ∅ := by
  intro k s hs
  simp at hs

namespace Check

variable {config : RateLimitConfig} {data : InMemoryStorage} {c : Check}

/-- The entry of a locked key stays as it is. -/
theorem entry_of_locked {u : ℕ} (hs : data.lookup c.key = some s)
    (hu : s.lockedUntil = some u) (hlt : c.now < u) : c.entry config data = s := by
  rw [entry, hs, Option.getD_some, next_of_locked hu hlt]

/-- Where a window is open, the entry is counted in it. -/
theorem entry_of_windowAt {e : CounterState}
    (hw : windowAt config c.now (data.lookup c.key) = some e) :
    c.entry config data = counted config c.now e.windowStart (min (e.count + 1) u64Max) :=
  next_of_windowAt hw

theorem overWhenLocked_entry (h : OverWhenLocked config data) (c : Check) :
    (c.entry config data).OverWhenLocked config := by
  cases hw : windowAt config c.now (data.lookup c.key) with
  | none =>
    obtain ⟨s, u, hs, hu, hlt⟩ := windowAt_eq_none.mp hw
    rw [entry_of_locked hs hu hlt]
    exact h c.key s hs
  | some e =>
    rw [entry_of_windowAt hw]
    exact overWhenLocked_counted _ _ _ _

theorem overWhenLocked_step (henabled : config.enabled = true) (h : OverWhenLocked config data)
    (c : Check) : OverWhenLocked config (c.step config data) := by
  intro k s hs
  rw [step_memory henabled] at hs
  by_cases hk : k = c.key
  · subst hk
    rw [AList.lookup_insert] at hs
    cases hs
    exact overWhenLocked_entry h c
  · rw [AList.lookup_insert_ne hk] at hs
    unfold swept at hs
    split at hs
    · rw [lookup_retain] at hs
      exact h k s (Option.filter_eq_some_iff.mp hs).1
    · exact h k s hs

theorem overWhenLocked_run (henabled : config.enabled = true) (h : OverWhenLocked config data)
    (cs : List Check) : OverWhenLocked config (run (step config) data cs) :=
  invariant_run (I := OverWhenLocked config) (step config)
    (fun _ c h => overWhenLocked_step henabled h c) cs h

theorem allowed_memory (henabled : config.enabled = true) (h : OverWhenLocked config data)
    (c : Check) :
    c.allowed config data = decide ((c.entry config data).count ≤ config.maxRequests) := by
  simp only [allowed, answer_memory henabled]
  exact respond_allowed (overWhenLocked_entry h c)

end Check

end Backbone.RateLimit
