import Backbone.RateLimit.Checks

/-!
# When a refused client may come back

A refusal carries `reset_at`, the end of the lockout or `window_seconds` after the reading the answer was
made with; an allowed answer carries `remaining`. The store lets a window run through its last second:
at `reset_at` the window of a refusal is over only if it had begun before that reading, or if a lockout
has ended it.

Reference: `backbone-rate-limit/src/limiter.rs`, `storage.rs` and `types.rs`.
-/

namespace Backbone.RateLimit

open Machine

/-- The fields of a configuration are `u64`s. -/
structure RateLimitConfig.InU64 (config : RateLimitConfig) : Prop where
  maxRequests : config.maxRequests ≤ u64Max
  windowSeconds : config.windowSeconds ≤ u64Max
  lockoutSeconds : ∀ lockout ∈ config.lockoutSeconds, lockout ≤ u64Max

/-- The window a check is counted in began before the reading its answer is made with. -/
def Check.BeganBefore (config : RateLimitConfig) (data : InMemoryStorage) (c : Check) : Prop :=
  ∃ e, windowAt config c.now (data.lookup c.key) = some e ∧ e.windowStart < c.later

section ResetAt

variable {config : RateLimitConfig} {data : InMemoryStorage} {later r : ℕ} {d : Check}

/-- Checks of other keys leave the window of this one as it is. -/
theorem windowAt_run_other (henabled : config.enabled = true) {key : String} {t : ℕ}
    (cs : List Check) (hother : ∀ c ∈ cs, c.key ≠ key) (hle : ∀ c ∈ cs, c.now ≤ t)
    (data : InMemoryStorage) :
    windowAt config t ((run (Check.step config) data cs).lookup key) =
      windowAt config t (data.lookup key) := by
  induction cs generalizing data with
  | nil => rfl
  | cons c cs ih =>
    have hstep := Check.active_step_other henabled data (hother c List.mem_cons_self)
    rw [run_cons, ih (fun d hd => hother d (List.mem_cons_of_mem _ hd))
      (fun d hd => hle d (List.mem_cons_of_mem _ hd))]
    exact windowAt_congr (hle c List.mem_cons_self) hstep

/-- What `reset_at` is: the end of an active lock, or one window's length from the reading. -/
theorem respond_resetAt (config : RateLimitConfig) (later n : ℕ) (lock : Option ℕ) :
    (respond config later ⟨n, lock⟩).resetAt =
      some (((lock.filter (later < ·)).getD (addU64 later config.windowSeconds))) := by
  cases hlock : lock.filter (later < ·) <;> simp [respond, hlock]

/-- At `reset_at` a lock has ended. -/
theorem lock_le_resetAt {n v : ℕ}
    (hr : (respond config later ⟨n, some v⟩).resetAt = some r) (hlater : later ≤ r) : v ≤ r := by
  rw [respond_resetAt, Option.some.injEq] at hr
  by_cases hlt : later < v
  · rw [Option.filter_some_pos (by simpa using hlt), Option.getD_some] at hr
    exact Nat.le_of_eq hr
  · exact Nat.le_trans (Nat.le_of_not_lt hlt) hlater

/-- Without a lock it is a window's length away; a sum that wraps lies in the past. -/
theorem resetAt_of_unlocked {n : ℕ} (hreading : later ≤ u64Max)
    (hwindow : config.windowSeconds ≤ u64Max)
    (hr : (respond config later ⟨n, none⟩).resetAt = some r) (hlater : later ≤ r) :
    r = later + config.windowSeconds := by
  rw [respond_resetAt, Option.some.injEq] at hr
  change addU64 later config.windowSeconds = r at hr
  unfold addU64 at hr
  unfold u64Max at hreading hwindow
  omega

/-- A check that finds the window of its key over or unlocked is counted first in a fresh one. -/
theorem allowed_of_fresh (henabled : config.enabled = true) (hover : OverWhenLocked config data)
    (hpos : 1 ≤ config.maxRequests)
    (hw : windowAt config d.now (data.lookup d.key) = some (.fresh d.now)) :
    d.allowed config data = true := by
  rw [Check.allowed_memory henabled hover, Check.entry_of_windowAt hw, decide_eq_true_eq]
  exact Nat.le_trans (Nat.min_le_left _ _) hpos

/-- A key that has gone over its limit in a window stays over it there. -/
theorem refused_of_running (henabled : config.enabled = true) (hover : OverWhenLocked config data)
    (hmax : config.maxRequests < u64Max) {e : CounterState}
    (hw : windowAt config d.now (data.lookup d.key) = some e)
    (hcount : config.maxRequests < e.count) : d.allowed config data = false := by
  rw [Check.allowed_memory henabled hover, Check.entry_of_windowAt hw, decide_eq_false_iff_not,
    Nat.not_le]
  exact Nat.lt_min.mpr ⟨Nat.lt_succ_of_lt hcount, hmax⟩

/-- The check at `reset_at`, from the window the refusal left. -/
theorem allowed_at_resetAt (henabled : config.enabled = true) (hpos : 1 ≤ config.maxRequests)
    (hwindow : config.windowSeconds ≤ u64Max) (hover : OverWhenLocked config data) {c : Check}
    (hreading : c.later ≤ u64Max)
    (hrefused : config.maxRequests < (c.entry config data).count)
    (hr : (respond config c.later
      ⟨(c.entry config data).count, (c.entry config data).lockedUntil⟩).resetAt = some r)
    (hlater : c.later ≤ r) {data' : InMemoryStorage} (hover' : OverWhenLocked config data')
    (hnow : d.now = r)
    (hw : windowAt config d.now (data'.lookup d.key) =
      windowAt config d.now (some (c.entry config data))) :
    d.allowed config data' = true ↔ config.lockoutSeconds.isSome ∨ c.BeganBefore config data := by
  have hentry := Check.overWhenLocked_entry hover c
  cases hlock : (c.entry config data).lockedUntil with
  | some v =>
    rw [hlock] at hr
    have hended : ¬ d.now < v := Nat.not_lt.mpr (hnow ▸ lock_le_resetAt hr hlater)
    refine iff_of_true (allowed_of_fresh henabled hover' hpos ?_) (.inl (hentry v hlock).1)
    rw [hw]
    simp [windowAt, hlock, hended]
  | none =>
    rw [hlock] at hr
    have hsum := resetAt_of_unlocked hreading hwindow hr hlater
    cases hin : windowAt config c.now (data.lookup c.key) with
    | none =>
      obtain ⟨s, u, hs, hu, hlt⟩ := windowAt_eq_none.mp hin
      rw [Check.entry_of_locked hs hu hlt, hu] at hlock
      cases hlock
    | some e =>
      have hcounted : c.entry config data =
          counted config c.now e.windowStart (min (e.count + 1) u64Max) := next_of_windowAt hin
      rw [hcounted] at hrefused hlock hw
      change locks config c.now _ = none at hlock
      change config.maxRequests < min (e.count + 1) u64Max at hrefused
      have hnolockout : config.lockoutSeconds = none := by
        rwa [locks, if_pos hrefused, Option.map_eq_none_iff] at hlock
      have hbegan : c.BeganBefore config data ↔ e.windowStart < c.later := by
        simp [Check.BeganBefore, hin]
      rw [windowAt_counted, hlock] at hw
      rw [hbegan, hnolockout]
      simp only [Option.isSome_none, Bool.false_eq_true, false_or]
      by_cases hbefore : e.windowStart < c.later
      · have hwindowOver : config.windowSeconds < d.now - e.windowStart := by omega
        rw [if_pos hwindowOver] at hw
        exact iff_of_true (allowed_of_fresh henabled hover' hpos hw) hbefore
      · have hrunning : ¬ config.windowSeconds < d.now - e.windowStart := by omega
        rw [if_neg hrunning] at hw
        have hlt : config.maxRequests < u64Max := Nat.lt_of_lt_of_le hrefused (Nat.min_le_right _ _)
        have hno := refused_of_running henabled hover' hlt hw hrefused
        rw [hno]
        exact iff_of_false Bool.false_ne_true hbefore

end ResetAt

/-! ## What remains at an instant -/

/-- How many of `n` further checks of a key at the instant `t` are allowed. -/
def allowedAfter (config : RateLimitConfig) (data : InMemoryStorage) (key : String) (t n : ℕ) : ℕ :=
  (allowedReadings config key data (List.replicate n ⟨key, t, t⟩)).length

section Remaining

variable {config : RateLimitConfig} {data : InMemoryStorage} {key : String} {t start : ℕ}

theorem allowedAfter_succ (n : ℕ) :
    allowedAfter config data key t (n + 1) =
      (if (Check.mk key t t).allowed config data then 1 else 0) +
        allowedAfter config ((Check.mk key t t).step config data) key t n := by
  by_cases h : (Check.mk key t t).allowed config data = true
  · simp [allowedAfter, List.replicate_succ, allowedReadings, h, Nat.add_comm]
  · simp [allowedAfter, List.replicate_succ, allowedReadings, h]

/-- The next check of a key that has been counted `k` times in its running window. -/
theorem check_counted (henabled : config.enabled = true) (hover : OverWhenLocked config data)
    (hstart : t - start ≤ config.windowSeconds) {k : ℕ} (hlock : locks config t k = none)
    (hdata : data.lookup key = some (counted config t start k)) :
    ((Check.mk key t t).allowed config data = true ↔ min (k + 1) u64Max ≤ config.maxRequests) ∧
      ((Check.mk key t t).step config data).lookup key =
        some (counted config t start (min (k + 1) u64Max)) := by
  have hw : windowAt config t (data.lookup key) = some (counted config t start k) := by
    rw [hdata, windowAt_counted, hlock]
    exact if_neg (Nat.not_lt.mpr hstart)
  have hentry : (Check.mk key t t).entry config data =
      counted config t start (min (k + 1) u64Max) := next_of_windowAt hw
  constructor
  · rw [Check.allowed_memory henabled hover, hentry, decide_eq_true_eq]
    exact Iff.rfl
  · rw [Check.lookup_step_self henabled data ⟨key, t, t⟩, hentry]

theorem locks_of_le {k : ℕ} (hk : k ≤ config.maxRequests) : locks config t k = none :=
  if_neg (Nat.not_lt.mpr hk)

/-- Over the limit, and neither lock nor window ends at `t`. -/
def CounterState.Refuses (config : RateLimitConfig) (t : ℕ) (s : CounterState) : Prop :=
  config.maxRequests < s.count ∧
    ∀ e, windowAt config t (some s) = some e → e = s ∧ config.lockoutSeconds = none

section

variable (henabled : config.enabled = true)
include henabled

theorem allowedAfter_refused (hmax : config.maxRequests < u64Max)
    (n : ℕ) : ∀ (data : InMemoryStorage) (s : CounterState), OverWhenLocked config data →
      data.lookup key = some s → s.Refuses config t → allowedAfter config data key t n = 0 := by
  induction n with
  | zero => exact fun _ _ _ _ _ => rfl
  | succ n ih =>
    intro data s hover hs hrefuses
    have hover' := Check.overWhenLocked_step henabled hover ⟨key, t, t⟩
    have hlookup := Check.lookup_step_self henabled data ⟨key, t, t⟩
    have hallowed := Check.allowed_memory henabled hover ⟨key, t, t⟩
    cases hw : windowAt config t (some s) with
    | none =>
      obtain ⟨s', u, hs', hu, hlt⟩ := windowAt_eq_none.mp hw
      cases hs'
      have hentry : (Check.mk key t t).entry config data = s := Check.entry_of_locked hs hu hlt
      rw [hentry] at hlookup hallowed
      rw [allowedAfter_succ, hallowed, ih _ s hover' hlookup hrefuses,
        decide_eq_false (Nat.not_le.mpr hrefuses.1)]
      rfl
    | some e =>
      obtain ⟨rfl, hnone⟩ := hrefuses.2 e hw
      have hlocks : ∀ k, locks config t k = none := by
        intro k
        unfold locks
        rw [hnone]
        split <;> rfl
      have hentry : (Check.mk key t t).entry config data =
          counted config t e.windowStart (min (e.count + 1) u64Max) := by
        apply next_of_windowAt
        rw [hs, hw]
      have hcount : config.maxRequests < min (e.count + 1) u64Max :=
        Nat.lt_min.mpr ⟨Nat.lt_succ_of_lt hrefuses.1, hmax⟩
      have hrefuses' : (counted config t e.windowStart (min (e.count + 1) u64Max)).Refuses config t := by
        refine ⟨hcount, ?_⟩
        intro e' he'
        rw [windowAt_counted, hlocks] at he'
        simp only [Nat.not_lt.mpr (windowAt_start hw), ↓reduceIte, Option.some.injEq] at he'
        exact ⟨he'.symm, hnone⟩
      rw [hentry] at hlookup hallowed
      rw [allowedAfter_succ, hallowed, ih _ _ hover' hlookup hrefuses',
        decide_eq_false (Nat.not_le.mpr hrefuses'.1)]
      rfl

/-- With a lockout that outlasts the instant, or none, exactly the rest of the allowance is left. -/
theorem allowedAfter_counted (hmax : config.maxRequests < u64Max)
    (hlockout : ∀ lockout ∈ config.lockoutSeconds, t < addU64 t lockout)
    (hstart : t - start ≤ config.windowSeconds) (n : ℕ) :
    ∀ (data : InMemoryStorage) (k : ℕ), OverWhenLocked config data →
      data.lookup key = some (counted config t start k) → k ≤ config.maxRequests →
      allowedAfter config data key t n = min n (config.maxRequests - k) := by
  induction n with
  | zero => exact fun _ _ _ _ _ => (Nat.zero_min _).symm
  | succ n ih =>
    intro data k hover hdata hk
    obtain ⟨hallowed, hlookup⟩ := check_counted henabled hover hstart (locks_of_le hk) hdata
    have hover' := Check.overWhenLocked_step henabled hover ⟨key, t, t⟩
    have hcount : min (k + 1) u64Max = k + 1 := by omega
    rw [hcount] at hallowed hlookup
    rw [allowedAfter_succ]
    by_cases hnext : k + 1 ≤ config.maxRequests
    · rw [if_pos (hallowed.mpr hnext), ih _ (k + 1) hover' hlookup hnext]
      omega
    · rw [if_neg (fun h => hnext (hallowed.mp h))]
      have hrefuses : (counted config t start (k + 1)).Refuses config t := by
        refine ⟨Nat.lt_of_not_le hnext, ?_⟩
        intro e he
        rw [windowAt_counted, locks, if_pos (Nat.lt_of_not_le hnext)] at he
        cases hl : config.lockoutSeconds with
        | none =>
          simp only [hl, Option.map_none, Nat.not_lt.mpr hstart, ↓reduceIte,
            Option.some.injEq] at he
          exact ⟨he.symm, rfl⟩
        | some lockout => simp [hl, hlockout lockout hl] at he
      rw [allowedAfter_refused henabled hmax n _ _ hover' hlookup hrefuses]
      omega

/-- A limit no count exceeds refuses nothing. -/
theorem allowedAfter_unlimited
    (hmax : u64Max ≤ config.maxRequests) (hstart : t - start ≤ config.windowSeconds) (n : ℕ) :
    ∀ (data : InMemoryStorage) (k : ℕ), OverWhenLocked config data →
      data.lookup key = some (counted config t start k) → k ≤ config.maxRequests →
      allowedAfter config data key t n = n := by
  induction n with
  | zero => exact fun _ _ _ _ _ => rfl
  | succ n ih =>
    intro data k hover hdata hk
    obtain ⟨hallowed, hlookup⟩ := check_counted henabled hover hstart (locks_of_le hk) hdata
    have hle : min (k + 1) u64Max ≤ config.maxRequests := Nat.le_trans (Nat.min_le_right _ _) hmax
    rw [allowedAfter_succ, if_pos (hallowed.mpr hle),
      ih _ _ (Check.overWhenLocked_step henabled hover _) hlookup hle, Nat.add_comm]

/-- A lockout that is over at once gives the allowance anew. -/
theorem allowedAfter_unlocked
    (hpos : 1 ≤ config.maxRequests) (hmax : config.maxRequests < u64Max) {lockout : ℕ}
    (hl : config.lockoutSeconds = some lockout) (hends : addU64 t lockout ≤ t)
    (hstart : t - start ≤ config.windowSeconds) (j : ℕ) :
    ∀ (data : InMemoryStorage) (k : ℕ), OverWhenLocked config data →
      data.lookup key = some (counted config t start k) → k + j = config.maxRequests →
      allowedAfter config data key t (j + 2) = j + 1 := by
  induction j with
  | zero =>
    intro data k hover hdata hk
    obtain ⟨hallowed, hlookup⟩ :=
      check_counted henabled hover hstart (locks_of_le (Nat.le_of_eq hk)) hdata
    have hcount : min (k + 1) u64Max = k + 1 := by omega
    rw [hcount] at hallowed hlookup
    have hover' := Check.overWhenLocked_step henabled hover ⟨key, t, t⟩
    -- The first is refused and locks the key until now; the second opens a fresh window.
    have hfresh : (Check.mk key t t).allowed config ((Check.mk key t t).step config data) = true := by
      refine allowed_of_fresh henabled hover' hpos ?_
      change windowAt config t (((Check.mk key t t).step config data).lookup key) = some (.fresh t)
      rw [hlookup, windowAt_counted, locks, if_pos (by omega), hl]
      exact if_neg (Nat.not_lt.mpr hends)
    rw [allowedAfter_succ, allowedAfter_succ, if_neg (fun h => by have := hallowed.mp h; omega),
      if_pos hfresh]
    rfl
  | succ j ih =>
    intro data k hover hdata hk
    obtain ⟨hallowed, hlookup⟩ :=
      check_counted henabled hover hstart (locks_of_le (by omega)) hdata
    have hcount : min (k + 1) u64Max = k + 1 := by omega
    rw [hcount] at hallowed hlookup
    rw [allowedAfter_succ, if_pos (hallowed.mpr (by omega)),
      ih _ (k + 1) (Check.overWhenLocked_step henabled hover _) hlookup (by omega)]
    omega

/-- `remaining` is what is left exactly when the limit can be exceeded and a lockout outlasts the
instant. -/
theorem allowedAfter_eq_remaining_iff
    (hpos : 1 ≤ config.maxRequests) (hmax : config.maxRequests ≤ u64Max)
    (hover : OverWhenLocked config data) (hstart : t - start ≤ config.windowSeconds) {k : ℕ}
    (hdata : data.lookup key = some (counted config t start k)) (hk : k ≤ config.maxRequests) :
    (∀ n, allowedAfter config data key t n = min n (config.maxRequests - k)) ↔
      config.maxRequests < u64Max ∧ ∀ lockout ∈ config.lockoutSeconds, t < addU64 t lockout := by
  constructor
  · intro h
    have hlt : config.maxRequests < u64Max := by
      refine Nat.lt_of_le_of_ne hmax fun heq => ?_
      have hall := allowedAfter_unlimited henabled (Nat.le_of_eq heq.symm) hstart
        (config.maxRequests - k + 1) data k hover hdata hk
      have hexact := h (config.maxRequests - k + 1)
      omega
    refine ⟨hlt, ?_⟩
    intro lockout hl
    by_contra hends
    have hagain := allowedAfter_unlocked henabled hpos hlt hl (Nat.le_of_not_lt hends) hstart
      (config.maxRequests - k) data k hover hdata (by omega)
    have hexact := h (config.maxRequests - k + 2)
    omega
  · rintro ⟨hlt, hlockout⟩ n
    exact allowedAfter_counted henabled hlt hlockout hstart n data k hover hdata hk

end

/-- In an allowed answer `remaining` is the rest of the allowance. -/
theorem respond_remaining {later n : ℕ} {lock : Option ℕ}
    (h : (respond config later ⟨n, lock⟩).allowed = true) :
    (respond config later ⟨n, lock⟩).remaining = config.maxRequests - n := by
  cases hlock : lock.filter (later < ·) with
  | some u => simp [respond, hlock] at h
  | none =>
    simp only [respond, hlock]
    split <;> omega

/-- An allowed check leaves its count in its window, below the limit and unlocked. -/
theorem lookup_of_allowed (henabled : config.enabled = true) (hover : OverWhenLocked config data)
    {c : Check} (hallowed : c.allowed config data = true) :
    ∃ start, c.now - start ≤ config.windowSeconds ∧
      (c.entry config data).count ≤ config.maxRequests ∧
      (c.step config data).lookup c.key =
        some (counted config c.now start (c.entry config data).count) := by
  have hcount := hallowed
  rw [Check.allowed_memory henabled hover, decide_eq_true_eq] at hcount
  cases hw : windowAt config c.now (data.lookup c.key) with
  | none =>
    obtain ⟨s, u, hs, hu, hlt⟩ := windowAt_eq_none.mp hw
    rw [Check.entry_of_locked hs hu hlt] at hcount
    exact absurd hcount (Nat.not_le.mpr (hover c.key s hs u hu).2)
  | some e =>
    refine ⟨e.windowStart, windowAt_start hw, hcount, ?_⟩
    rw [Check.lookup_step_self henabled, Check.entry_of_windowAt hw]
    rfl

end Remaining

/-! ## Every answer -/

/-- A refused client that comes back at `reset_at`, its key unused since, is allowed exactly when the
limiter locks keys out or the window of the refusal began before the reading it was answered with. What
an allowed answer calls `remaining` is what is left at that instant exactly when the limit is one a
count can exceed and a lockout, if there is one, outlasts the instant. -/
theorem reset_at_and_remaining (config : RateLimitConfig) (henabled : config.enabled = true)
    (hpos : 1 ≤ config.maxRequests) (hrange : config.InU64) (pre : List Check) (c : Check)
    (resp : RateLimitResponse)
    (hresp : c.answer config (run (Check.step config) ∅ pre) = .ok resp) :
    (resp.allowed = false → c.later ≤ u64Max →
      ∀ r mid d, resp.resetAt = some r → InOrder (pre ++ c :: (mid ++ [d])) →
        (∀ x ∈ mid, x.key ≠ c.key) → d.key = c.key → d.now = r → c.later ≤ d.now →
        (d.allowed config (run (Check.step config) ∅ (pre ++ c :: mid)) = true ↔
          config.lockoutSeconds.isSome ∨
            c.BeganBefore config (run (Check.step config) ∅ pre))) ∧
    (resp.allowed = true → c.later = c.now →
      ((∀ n, allowedAfter config (run (Check.step config) ∅ (pre ++ [c])) c.key c.now n =
          min n resp.remaining) ↔
        config.maxRequests < u64Max ∧
          ∀ lockout ∈ config.lockoutSeconds, c.now < addU64 c.now lockout)) := by
  have hover := Check.overWhenLocked_run henabled (overWhenLocked_empty config)
  rw [Check.answer_memory henabled, Except.ok.injEq] at hresp
  subst hresp
  have hdecided : (respond config c.later _).allowed = decide _ :=
    respond_allowed (Check.overWhenLocked_entry (hover pre) c)
  constructor
  · intro hrefused hreading r mid d hr hsorted hother hkey hnow hlater
    rw [hrefused, eq_comm, decide_eq_false_iff_not, Nat.not_le] at hdecided
    have hlast : ∀ x ∈ c :: mid, x.now ≤ d.now := by
      intro x hx
      have htail := (List.pairwise_append.mp hsorted.between).2.1
      rw [← List.cons_append] at htail
      exact (List.pairwise_append.mp htail).2.2 x hx d List.mem_cons_self
    have hw := windowAt_run_other henabled mid hother
      (fun x hx => hlast x (List.mem_cons_of_mem _ hx))
      (c.step config (run (Check.step config) ∅ pre))
    rw [Check.lookup_step_self henabled, ← hkey] at hw
    rw [run_append, run_cons]
    exact allowed_at_resetAt henabled hpos hrange.windowSeconds (hover pre) hreading hdecided hr
      (hnow ▸ hlater)
      (Check.overWhenLocked_run henabled (Check.overWhenLocked_step henabled (hover pre) c) mid)
      hnow hw
  · intro hallowed hinstant
    rw [hallowed, eq_comm, decide_eq_true_eq] at hdecided
    have hcheck : c.allowed config (run (Check.step config) ∅ pre) = true := by
      rw [Check.allowed_memory henabled (hover pre), decide_eq_true_eq]
      exact hdecided
    obtain ⟨start, hstart, hle, hlookup⟩ := lookup_of_allowed henabled (hover pre) hcheck
    have hover' := hover (pre ++ [c])
    rw [run_append] at hover' ⊢
    rw [respond_remaining hallowed]
    exact allowedAfter_eq_remaining_iff henabled hpos hrange.maxRequests hover' hstart hlookup hle

/-- Refused three seconds into its window, a client is let in ten seconds later. -/
theorem reset_at_and_remaining_late :
    Check.allowed oneInTen
      (run (Check.step oneInTen) ∅ [⟨"k", 0, 0⟩, ⟨"k", 3, 3⟩]) ⟨"k", 13, 13⟩ = true :=
  ((reset_at_and_remaining oneInTen rfl (by decide)
    ⟨by decide, by decide, by rintro _ ⟨⟩⟩ [⟨"k", 0, 0⟩] ⟨"k", 3, 3⟩
    ⟨false, 0, some 13, some "Rate limit exceeded", 2, true, none⟩ rfl).1 rfl (by decide) 13 []
    ⟨"k", 13, 13⟩ rfl (by decide) (by simp) rfl rfl (by decide)).mpr (.inr ⟨_, rfl, by decide⟩)

/-- Refused in the second its window began, a client that comes back when it is told to is refused
again. -/
theorem reset_at_refused_again :
    ¬ ∀ (config : RateLimitConfig) (pre : List Check) (c : Check) (resp : RateLimitResponse) (r : ℕ)
      (mid : List Check) (d : Check), config.enabled = true → 1 ≤ config.maxRequests →
      c.answer config (run (Check.step config) ∅ pre) = .ok resp → resp.allowed = false →
      resp.resetAt = some r → InOrder (pre ++ c :: (mid ++ [d])) → (∀ x ∈ mid, x.key ≠ c.key) →
      d.key = c.key → d.now = r →
      d.allowed config (run (Check.step config) ∅ (pre ++ c :: mid)) = true := by
  intro h
  have hallowed := h oneInTen [⟨"k", 0, 0⟩] ⟨"k", 0, 0⟩
    ⟨false, 0, some 10, some "Rate limit exceeded", 2, true, none⟩ 10 [] ⟨"k", 10, 10⟩ rfl (by decide)
    rfl rfl rfl (by decide) (by simp) rfl rfl
  exact absurd hallowed (by decide)

end Backbone.RateLimit
