import Backbone.RateLimit.Checks

/-!
# How many checks a window's length can hold

A window that rolls over gives a key its allowance anew, and so does a lockout that expires: the store
then starts a fresh window at once, so a lockout shorter than the window opens one window after another
inside the length of one. `most` counts them. With no lockout, or one as long as the window, it is twice
the allowance.

The invariant is `Budget`: what has been allowed from a point in time on, against the window the next
request would be counted in.

Reference: `backbone-rate-limit/src/limiter.rs`, `storage.rs`.
-/

namespace Backbone.RateLimit

open Machine

variable {data : InMemoryStorage}

/-- How many of them fall in the `window_seconds` behind `a`, both ends included. -/
def allowedIn (config : RateLimitConfig) (key : String) (a : ℕ) (cs : List Check) : ℕ :=
  (allowedReadings config key ∅ cs).countP fun t => a ≤ t ∧ t ≤ a + config.windowSeconds

/-- How many lockouts can follow each other in `d` seconds. -/
def lockouts (config : RateLimitConfig) (d : ℕ) : ℕ :=
  match config.lockoutSeconds with
  | some lockout => d / lockout
  | none => 0

/-- The most checks of a key that the length of a window can hold. -/
def most (config : RateLimitConfig) : ℕ :=
  config.maxRequests * (2 + lockouts config (config.windowSeconds - 1))

/-- The most that can be allowed from `a` on before a window that starts at `t`. -/
def before (config : RateLimitConfig) (a t : ℕ) : ℕ :=
  if t ≤ a then 0 else config.maxRequests * (1 + lockouts config (t - a - 1))

section Bounds

variable {config : RateLimitConfig} {a t start : ℕ}

theorem lockouts_mono (config : RateLimitConfig) {d d' : ℕ} (h : d ≤ d') :
    lockouts config d ≤ lockouts config d' := by
  unfold lockouts
  cases config.lockoutSeconds with
  | none => exact Nat.le_refl 0
  | some lockout => exact Nat.div_le_div_right h

theorem before_of_le (h : t ≤ a) : before config a t = 0 := if_pos h

theorem before_of_lt (h : a < t) :
    before config a t = config.maxRequests * (1 + lockouts config (t - a - 1)) :=
  if_neg (Nat.not_le.mpr h)

theorem maxRequests_le_before (config : RateLimitConfig) (h : a < t) :
    config.maxRequests ≤ before config a t := by
  rw [before_of_lt h]
  exact Nat.le_mul_of_pos_right _ (by omega)

/-- A window that starts inside the interval can add its allowance. -/
theorem before_add_le_most (config : RateLimitConfig) (h : start ≤ a + config.windowSeconds) :
    before config a start + config.maxRequests ≤ most config := by
  have hadd : ∀ n, config.maxRequests * (1 + n) + config.maxRequests =
      config.maxRequests * (2 + n) := by
    intro n
    rw [← Nat.mul_succ]
    congr 1
    omega
  by_cases hle : start ≤ a
  · rw [before_of_le hle, Nat.zero_add, most]
    exact Nat.le_mul_of_pos_right _ (by omega)
  · rw [before_of_lt (Nat.lt_of_not_le hle), hadd, most]
    apply Nat.mul_le_mul_left
    have := lockouts_mono config (show start - a - 1 ≤ config.windowSeconds - 1 by omega)
    omega

/-- Behind a lockout another allowance has been used up. -/
theorem before_add_le_before {lockout : ℕ} (hl : config.lockoutSeconds = some lockout)
    (hpos : 1 ≤ lockout) (ha : a < t) (h : start + lockout ≤ t) :
    before config a start + config.maxRequests ≤ before config a t := by
  by_cases hle : start ≤ a
  · rw [before_of_le hle, Nat.zero_add]
    exact maxRequests_le_before config ha
  · rw [before_of_lt (Nat.lt_of_not_le hle), before_of_lt ha, ← Nat.mul_succ]
    apply Nat.mul_le_mul_left
    have hdiv : (start - a - 1) / lockout + 1 ≤ (t - a - 1) / lockout := by
      rw [← Nat.add_div_right _ hpos]
      exact Nat.div_le_div_right (by omega)
    simp only [lockouts, hl]
    omega

end Bounds

/-! ## The invariant -/

/-- `n` checks have been allowed in the interval that starts at `a` when the clock reads `now`. A
request from then on finds a window that accounts for them. -/
structure Budget (config : RateLimitConfig) (a now n : ℕ) (m : Option CounterState) : Prop where
  total : n ≤ most config
  started : 0 < n → a ≤ now
  begun : ∀ t, now ≤ t → ∀ e, windowAt config t m = some e → e.windowStart ≤ t
  window : ∀ t, now ≤ t → t ≤ a + config.windowSeconds → ∀ e, windowAt config t m = some e →
    n ≤ before config a e.windowStart + min e.count config.maxRequests

section Steps

variable {config : RateLimitConfig} {a now n : ℕ} {m : Option CounterState} {s : CounterState}

theorem budget_empty (config : RateLimitConfig) (a : ℕ) : Budget config a 0 0 none where
  total := Nat.zero_le _
  started h := absurd h (Nat.lt_irrefl 0)
  begun := by
    rintro t - e ⟨rfl⟩
    exact Nat.le_refl t
  window _ _ _ _ _ := Nat.zero_le _

theorem Budget.mono (h : Budget config a now n m) {now' : ℕ} (hle : now ≤ now') :
    Budget config a now' n m where
  total := h.total
  started hn := Nat.le_trans (h.started hn) hle
  begun t ht := h.begun t (Nat.le_trans hle ht)
  window t ht := h.window t (Nat.le_trans hle ht)

/-- The budget sees the entry while it matters. -/
theorem Budget.congr (h : Budget config a now n m) {m' : Option CounterState}
    (hm : active config now m' = active config now m) : Budget config a now n m' where
  total := h.total
  started := h.started
  begun t ht e he := h.begun t ht e (by rwa [windowAt_congr ht hm] at he)
  window t ht hin e he := h.window t ht hin e (by rwa [windowAt_congr ht hm] at he)

/-- One more check in the interval, if it is allowed. -/
def charge (config : RateLimitConfig) (a now count : ℕ) : ℕ :=
  if count + 1 ≤ config.maxRequests ∧ a ≤ now ∧ now ≤ a + config.windowSeconds then 1 else 0

/-- What is spent before a fresh window is accounted for without it. -/
theorem le_fresh_of_le {t b c : ℕ}
    (h : n ≤ b + min c config.maxRequests)
    (hb : b + config.maxRequests ≤ before config a (CounterState.fresh t).windowStart) :
    n ≤ before config a (CounterState.fresh t).windowStart + min s.count config.maxRequests := by
  omega

/-- A count kept within a `u64` compares to a smaller limit as if it were not. -/
theorem min_count {c limit bound : ℕ} (h : limit < bound) :
    min (min c bound) limit = min c limit := by
  omega

/-- A request is counted in its window. -/
theorem Budget.counted (h : Budget config a now n m) (hmax : config.maxRequests < u64Max)
    (hlockout : ∀ lockout ∈ config.lockoutSeconds, 1 ≤ lockout ∧ now + lockout < 2 ^ 64)
    {e : CounterState} (he : windowAt config now m = some e) :
    Budget config a now (n + charge config a now e.count)
      (some (counted config now e.windowStart (min (e.count + 1) u64Max))) := by
  have hbegun : e.windowStart ≤ now := h.begun now (Nat.le_refl now) e he
  have hlength := windowAt_start he
  -- Inside the interval the window of the request accounts for it too.
  have hspent : now ≤ a + config.windowSeconds → n + charge config a now e.count ≤
      before config a e.windowStart + min (e.count + 1) config.maxRequests := by
    intro hin
    have := h.window now (Nat.le_refl now) hin e he
    unfold charge
    split <;> omega
  have hstarted : 0 < n + charge config a now e.count → a ≤ now := by
    intro hpos
    by_cases hn : 0 < n
    · exact h.started hn
    · unfold charge at hpos
      split at hpos
      · rename_i hcharge
        exact hcharge.2.1
      · omega
  refine ⟨?_, hstarted, ?_, ?_⟩
  · by_cases hin : now ≤ a + config.windowSeconds
    · have hroom := before_add_le_most config (Nat.le_trans hbegun hin)
      have := hspent hin
      omega
    · have hnone : charge config a now e.count = 0 := if_neg fun hc => hin hc.2.2
      rw [hnone]
      exact h.total
  · intro t ht e' he'
    cases opensWindow_of_windowAt he' with
    | lockOver => exact Nat.le_refl t
    | windowOver => exact Nat.le_refl t
    | running => exact Nat.le_trans hbegun ht
  · intro t ht hin e' he'
    have hspent := hspent (Nat.le_trans ht hin)
    -- What is left of a window that is over was spent before the fresh one.
    have hearlier : now < t → ¬ a < t → n + charge config a now e.count = 0 := fun hlt hat =>
      Nat.eq_zero_of_not_pos fun hc => hat (Nat.lt_of_le_of_lt (hstarted hc) hlt)
    cases opensWindow_of_windowAt he' with
    | lockOver hlock hle =>
      -- The request is refused and locks the key: a fresh window opens when the lock ends.
      obtain ⟨-, lockout, hl, hu⟩ := exists_of_locks hlock
      obtain ⟨hpos, hfits⟩ := hlockout lockout hl
      rw [addU64, Nat.mod_eq_of_lt hfits] at hu
      have hends : e.windowStart + lockout ≤ t ∧ now < t := by omega
      by_cases ha : a < t
      · exact le_fresh_of_le hspent (before_add_le_before hl hpos ha hends.1)
      · rw [hearlier hends.2 ha]
        exact Nat.zero_le _
    | windowOver hlock hover =>
      -- The window is over by `t`, so it started before the interval.
      change config.windowSeconds < t - e.windowStart at hover
      have hstart : e.windowStart ≤ a ∧ now < t := by omega
      by_cases ha : a < t
      · apply le_fresh_of_le hspent
        rw [before_of_le hstart.1, Nat.zero_add]
        exact maxRequests_le_before config ha
      · rw [hearlier hstart.2 ha]
        exact Nat.zero_le _
    | running =>
      rw [RateLimit.counted, min_count hmax]
      exact hspent

/-- A request of a locked key is counted nowhere. -/
theorem charge_of_locked (hs : s.OverWhenLocked config) {u : ℕ}
    (hu : s.lockedUntil = some u) : ¬ s.count ≤ config.maxRequests :=
  Nat.not_le.mpr (hs u hu).2

/-- What a check adds to the budget of its own key, and where it leaves the entry. -/
theorem Budget.check {c : Check} (henabled : config.enabled = true)
    (hmax : config.maxRequests < u64Max)
    (hlockout : ∀ lockout ∈ config.lockoutSeconds, 1 ≤ lockout ∧ c.now + lockout < 2 ^ 64)
    (hover : OverWhenLocked config data) (h : Budget config a c.now n (data.lookup c.key)) :
    Budget config a c.now
      (n + if c.allowed config data ∧ a ≤ c.now ∧ c.now ≤ a + config.windowSeconds then 1 else 0)
      ((c.step config data).lookup c.key) := by
  simp only [Check.lookup_step_self henabled, Check.allowed_memory henabled hover,
    decide_eq_true_eq]
  cases hw : windowAt config c.now (data.lookup c.key) with
  | none =>
    obtain ⟨s, u, hs, hu, hlt⟩ := windowAt_eq_none.mp hw
    have hentry : c.entry config data = s := Check.entry_of_locked hs hu hlt
    rw [hentry, if_neg fun hc => charge_of_locked (hover c.key s hs) hu hc.1, Nat.add_zero, ← hs]
    exact h
  | some e =>
    have hcount : min (e.count + 1) u64Max ≤ config.maxRequests ↔
        e.count + 1 ≤ config.maxRequests := by
      have hmin := min_count (c := e.count + 1) hmax
      omega
    have hcounted := h.counted hmax hlockout hw
    rw [Check.entry_of_windowAt hw]
    simp only [RateLimit.counted, hcount]
    exact hcounted

end Steps

/-! ## Runs -/

section Runs

variable {config : RateLimitConfig} {key : String}

/-- No run of checks overspends. -/
theorem allowed_le_most {a : ℕ} (henabled : config.enabled = true)
    (hmax : config.maxRequests < u64Max) (key : String) (cs : List Check) :
    ∀ (data : InMemoryStorage) (now n : ℕ), (∀ c ∈ cs, now ≤ c.now) → cs.Pairwise (·.now ≤ ·.now) →
      (∀ lockout ∈ config.lockoutSeconds, 1 ≤ lockout ∧ ∀ c ∈ cs, c.now + lockout < 2 ^ 64) →
      OverWhenLocked config data → Budget config a now n (data.lookup key) →
      n + (allowedReadings config key data cs).countP
        (fun t => a ≤ t ∧ t ≤ a + config.windowSeconds) ≤ most config := by
  induction cs with
  | nil => exact fun _ _ _ _ _ _ _ h => h.total
  | cons c cs ih =>
    intro data now n hnow hsorted hlockout hover h
    have hnext : ∀ d ∈ cs, c.now ≤ d.now := (List.pairwise_cons.mp hsorted).1
    have hrest : ∀ lockout ∈ config.lockoutSeconds, 1 ≤ lockout ∧
        ∀ d ∈ cs, d.now + lockout < 2 ^ 64 := fun lockout hl =>
      ⟨(hlockout lockout hl).1, fun d hd => (hlockout lockout hl).2 d (List.mem_cons_of_mem _ hd)⟩
    have hover' := Check.overWhenLocked_step henabled hover c
    have hc := h.mono (hnow c List.mem_cons_self)
    by_cases hkey : c.key = key
    · subst hkey
      have hcheck := hc.check henabled hmax
        (fun lockout hl => ⟨(hlockout lockout hl).1, (hlockout lockout hl).2 c List.mem_cons_self⟩)
        hover
      have hrun := ih _ _ _ hnext (List.pairwise_cons.mp hsorted).2 hrest hover' hcheck
      by_cases hallowed : c.allowed config data = true
      · simp only [allowedReadings, hallowed, and_self, ↓reduceIte, List.countP_cons,
          decide_eq_true_eq, true_and] at hrun ⊢
        omega
      · simpa only [allowedReadings, hallowed, Bool.false_eq_true, and_false, false_and, ↓reduceIte,
          Nat.add_zero] using hrun
    · have hother := hc.congr (Check.active_step_other henabled data hkey)
      simpa only [allowedReadings, hkey, false_and, ↓reduceIte]
        using ih _ _ _ hnext (List.pairwise_cons.mp hsorted).2 hrest hover' hother

/-- The reading until which a key is locked. -/
def lockOf (data : InMemoryStorage) (key : String) : Option ℕ :=
  (data.lookup key).bind (·.lockedUntil)

theorem lockOf_eq_some {u : ℕ} :
    lockOf data key = some u ↔ ∃ s, data.lookup key = some s ∧ s.lockedUntil = some u :=
  Option.bind_eq_some_iff

section

variable (henabled : config.enabled = true) {c : Check} {u : ℕ}
include henabled

/-- A check before the lock of its key ends is refused and leaves the entry alone. -/
theorem refused_of_locked (hover : OverWhenLocked config data)
    (hu : lockOf data c.key = some u) (hlt : c.now < u) :
    c.allowed config data = false ∧ lockOf (c.step config data) c.key = some u := by
  obtain ⟨s, hs, hsu⟩ := lockOf_eq_some.mp hu
  have hentry : c.entry config data = s := Check.entry_of_locked hs hsu hlt
  constructor
  · rw [Check.allowed_memory henabled hover, hentry, decide_eq_false_iff_not]
    exact charge_of_locked (hover c.key s hs) hsu
  · exact lockOf_eq_some.mpr ⟨s, by rw [Check.lookup_step_self henabled, hentry], hsu⟩

/-- So does a check of another key, sweep or not. -/
theorem locked_step (hover : OverWhenLocked config data)
    (hu : lockOf data key = some u) (hlt : c.now < u) :
    lockOf (c.step config data) key = some u := by
  by_cases hkey : c.key = key
  · subst hkey
    exact (refused_of_locked henabled hover hu hlt).2
  · obtain ⟨s, hs, hsu⟩ := lockOf_eq_some.mp hu
    have hactive : active config c.now ((c.step config data).lookup key) = some s := by
      rw [Check.active_step_other henabled data hkey, hs]
      simp [active, Option.filter, CounterState.unfinished, hsu, hlt]
    exact lockOf_eq_some.mpr ⟨s, (Option.filter_eq_some_iff.mp hactive).1, hsu⟩

theorem locked_run (cs : List Check) :
    ∀ {data : InMemoryStorage} {u : ℕ}, OverWhenLocked config data → lockOf data key = some u →
      (∀ c ∈ cs, c.now < u) → lockOf (run (Check.step config) data cs) key = some u := by
  induction cs with
  | nil => exact fun _ hu _ => hu
  | cons c cs ih =>
    intro data u hover hu hlt
    exact ih (Check.overWhenLocked_step henabled hover c)
      (locked_step henabled hover hu (hlt c List.mem_cons_self))
      fun d hd => hlt d (List.mem_cons_of_mem _ hd)

/-- A check that leaves its key under a lock of its own making. -/
theorem lock_started (hover : OverWhenLocked config data)
    (hbefore : lockOf data c.key ≠ some u)
    (hafter : lockOf (c.step config data) c.key = some u) :
    c.allowed config data = false ∧
      ∃ lockout ∈ config.lockoutSeconds, u = addU64 c.now lockout := by
  obtain ⟨s, hs, hsu⟩ := lockOf_eq_some.mp hafter
  rw [Check.lookup_step_self henabled, Option.some.injEq] at hs
  subst hs
  constructor
  · rw [Check.allowed_memory henabled hover, decide_eq_false_iff_not]
    exact charge_of_locked (Check.overWhenLocked_entry hover c) hsu
  · cases hw : windowAt config c.now (data.lookup c.key) with
    | none =>
      obtain ⟨s, v, hs, hv, hlt⟩ := windowAt_eq_none.mp hw
      rw [Check.entry_of_locked hs hv hlt] at hsu
      exact absurd (lockOf_eq_some.mpr ⟨s, hs, hsu⟩) hbefore
    | some e =>
      rw [Check.entry_of_windowAt hw] at hsu
      obtain ⟨-, lockout, hl, hu⟩ := exists_of_locks hsu
      exact ⟨lockout, hl, hu.symm⟩

end

/-- A lockout starts with a refusal and lasts as configured, and until it ends no check of its key is
allowed. -/
structure LockoutsHold (config : RateLimitConfig) (cs : List Check) : Prop where
  starts : ∀ pre c post u, cs = pre ++ c :: post →
    lockOf (run (Check.step config) ∅ pre) c.key ≠ some u →
    lockOf (run (Check.step config) ∅ (pre ++ [c])) c.key = some u →
    c.allowed config (run (Check.step config) ∅ pre) = false ∧
      ∃ lockout ∈ config.lockoutSeconds, u = c.now + lockout
  lasts : ∀ pre c mid d post u, cs = pre ++ c :: (mid ++ d :: post) → d.key = c.key →
    lockOf (run (Check.step config) ∅ (pre ++ [c])) c.key = some u → d.now < u →
    d.allowed config (run (Check.step config) ∅ (pre ++ c :: mid)) = false

theorem lockoutsHold (henabled : config.enabled = true) {cs : List Check}
    (hsorted : cs.Pairwise (·.now ≤ ·.now))
    (hfits : ∀ lockout ∈ config.lockoutSeconds, ∀ c ∈ cs, c.now + lockout < 2 ^ 64) :
    LockoutsHold config cs where
  starts := by
    rintro pre c post u rfl hbefore hafter
    have hover := Check.overWhenLocked_run henabled (overWhenLocked_empty config) pre
    rw [run_append] at hafter
    obtain ⟨hrefused, lockout, hl, hu⟩ := lock_started henabled hover hbefore hafter
    have hlt := hfits lockout hl c (List.mem_append_right _ List.mem_cons_self)
    exact ⟨hrefused, lockout, hl, by rw [hu, addU64, Nat.mod_eq_of_lt hlt]⟩
  lasts := by
    rintro pre c mid d post u rfl hkey hlock hlt
    have hbefore : ∀ x ∈ mid, x.now < u := by
      intro x hx
      have htail := (List.pairwise_cons.mp (List.pairwise_append.mp hsorted).2.1).2
      have hle := (List.pairwise_append.mp htail).2.2 x hx d List.mem_cons_self
      exact Nat.lt_of_le_of_lt hle hlt
    have hover := Check.overWhenLocked_run henabled (overWhenLocked_empty config)
    have hheld := locked_run henabled mid (hover (pre ++ [c])) hlock hbefore
    have hsplit : pre ++ c :: mid = (pre ++ [c]) ++ mid := by simp
    rw [hsplit, run_append]
    rw [← hkey] at hheld
    exact (refused_of_locked henabled
      (Check.overWhenLocked_run henabled (hover (pre ++ [c])) mid) hheld hlt).1

/-- A window's length holds one allowance, one for the window that rolls over in it, and one for each
lockout that ends in it; nothing is allowed in a lockout. -/
theorem fixed_window_bound (config : RateLimitConfig) (key : String) (cs : List Check)
    (henabled : config.enabled = true) (hmax : config.maxRequests < u64Max)
    (hlockout : ∀ lockout ∈ config.lockoutSeconds, 1 ≤ lockout)
    (hfits : ∀ lockout ∈ config.lockoutSeconds, ∀ c ∈ cs, c.now + lockout < 2 ^ 64)
    (hsorted : cs.Pairwise (·.now ≤ ·.now)) :
    (∀ a, allowedIn config key a cs ≤
      config.maxRequests * (2 + lockouts config (config.windowSeconds - 1))) ∧
    ((∀ lockout ∈ config.lockoutSeconds, config.windowSeconds ≤ lockout) →
      ∀ a, allowedIn config key a cs ≤ 2 * config.maxRequests) ∧
    LockoutsHold config cs := by
  have hbound : ∀ a, allowedIn config key a cs ≤ most config := by
    intro a
    have h := allowed_le_most henabled hmax key cs ∅ 0 0
      (fun c _ => Nat.zero_le c.now) hsorted
      (fun lockout hl => ⟨hlockout lockout hl, hfits lockout hl⟩) (overWhenLocked_empty config)
      (budget_empty config a)
    rwa [Nat.zero_add] at h
  refine ⟨hbound, fun hlong a => ?_, lockoutsHold henabled hsorted hfits⟩
  have hone : lockouts config (config.windowSeconds - 1) = 0 := by
    unfold lockouts
    cases hl : config.lockoutSeconds with
    | none => rfl
    | some lockout =>
      have hpos := hlockout lockout hl
      have hle := hlong lockout hl
      exact Nat.div_eq_of_lt (by omega)
  have h := hbound a
  rwa [most, hone, Nat.add_zero, Nat.mul_comm] at h

end Runs

/-- One request in ten seconds, then a lockout. -/
def oneThenLocked (lockout : ℕ) : RateLimitConfig := ⟨1, 10, true, some lockout⟩

/-- A client that goes on as soon as it is let. -/
def eager : List Check := [⟨"k", 0, 0⟩, ⟨"k", 0, 0⟩, ⟨"k", 1, 1⟩, ⟨"k", 1, 1⟩, ⟨"k", 2, 2⟩]

theorem fixed_window_bound_eager :
    (∀ a, allowedIn (oneThenLocked 3) "k" a eager ≤ 1 * (2 + 9 / 3)) ∧
    (10 ≤ 3 → ∀ a, allowedIn (oneThenLocked 3) "k" a eager ≤ 2 * 1) ∧
    LockoutsHold (oneThenLocked 3) eager := by
  have h := fixed_window_bound (oneThenLocked 3) "k" eager rfl (by decide)
    (by rintro _ ⟨rfl⟩; decide) (by rintro _ ⟨rfl⟩; decide) (by decide)
  refine ⟨h.1, fun hle => h.2.1 ?_, h.2.2⟩
  rintro _ ⟨rfl⟩
  exact hle

/-- A lockout of one second lets a window of ten seconds see three windows' allowances. -/
theorem short_lockout_allows_three :
    ¬ ∀ (config : RateLimitConfig) (key : String) (cs : List Check) (a : ℕ),
      config.enabled = true → cs.Pairwise (·.now ≤ ·.now) →
      allowedIn config key a cs ≤ 2 * config.maxRequests := by
  intro h
  exact absurd (h (oneThenLocked 1) "k" eager 0 rfl (by decide)) (by decide)

end Backbone.RateLimit
