import Backbone.Lib.Run
import Backbone.RateLimit.Storage

/-!
# Where the two stores agree

`RedisStorage` is meant to run the algorithm of `InMemoryStorage`. This module relates the two
states key by key, and finds the calls at which their answers part: the last second of a window, a
lockout that ends inside its window, and a count that is asked for when its window is over.

Reference: `backbone-rate-limit/src/redis_storage.rs`, `storage.rs`.
-/

namespace Backbone.RateLimit

open Machine

variable {lock counter : Option RedisEntry} {config : RateLimitConfig} {s : CounterState}
  {keyPrefix : String} {k k' : String} {now : ℕ}

/-! ## One key -/

/-- The counter key Redis holds for an entry. -/
def CounterState.counterEntry (config : RateLimitConfig) (s : CounterState) : RedisEntry :=
  ⟨s.count, some (s.windowStart + config.windowSeconds)⟩

/-- The lock key Redis holds for an entry. -/
def CounterState.lockEntry (s : CounterState) : Option RedisEntry :=
  s.lockedUntil.map fun u => ⟨1, some (u : ℤ)⟩

/-- What an entry in memory satisfies. -/
structure CounterState.WellFormed (config : RateLimitConfig) (s : CounterState) : Prop where
  count_pos : 1 ≤ s.count
  /-- Only a key over the limit is locked, and it is locked at once. -/
  locked : ∀ u, s.lockedUntil = some u →
    config.lockoutSeconds.isSome ∧ s.count = config.maxRequests + 1
  locked_lt : ∀ u, s.lockedUntil = some u → u < 2 ^ 64
  unlocked : s.lockedUntil = none → config.lockoutSeconds.isSome → s.count ≤ config.maxRequests
  count_lt : s.count < 2 ^ 63

/-- From `now` on, a key's counter and lock in Redis look as the entry in memory says. -/
structure Mirrors (config : RateLimitConfig) (now : ℕ) (m : Option CounterState)
    (counter lock : Option RedisEntry) : Prop where
  counter_eq : ∀ t, now ≤ t →
    counter.filter (·.live t) = (m.map (·.counterEntry config)).filter (·.live t)
  lock_eq : ∀ t, now ≤ t → lock.filter (·.live t) = (m.bind (·.lockEntry)).filter (·.live t)
  wellFormed : ∀ s ∈ m, s.WellFormed config

theorem Mirrors.mono {now' : ℕ} (hle : now ≤ now') {m : Option CounterState}
    (h : Mirrors config now m counter lock) : Mirrors config now' m counter lock where
  counter_eq t ht := h.counter_eq t (Nat.le_trans hle ht)
  lock_eq t ht := h.lock_eq t (Nat.le_trans hle ht)
  wellFormed := h.wellFormed

theorem Mirrors.empty (config : RateLimitConfig) (now : ℕ) : Mirrors config now none none none where
  counter_eq _ _ := rfl
  lock_eq _ _ := rfl
  wellFormed := by simp

/-- An entry that a sweep drops has nothing left in Redis either. -/
theorem Mirrors.drop (h : Mirrors config now (some s) counter lock)
    (hs : s.unfinished config now = false) : Mirrors config now none counter lock where
  counter_eq t ht := by
    rw [h.counter_eq t ht]
    simp [CounterState.unfinished] at hs
    simp [CounterState.counterEntry, RedisEntry.live, Option.filter]
    omega
  lock_eq t ht := by
    rw [h.lock_eq t ht]
    simp only [CounterState.unfinished, Bool.or_eq_false_iff] at hs
    cases hu : s.lockedUntil with
    | none => simp [CounterState.lockEntry, hu]
    | some u =>
      simp [hu] at hs
      simp [CounterState.lockEntry, hu, RedisEntry.live, Option.filter]
      omega
  wellFormed := by simp

/-- An increment at `now` is not in the last second of the entry's window, nor after a lockout that
ended inside it. -/
def CounterState.Clear (config : RateLimitConfig) (now : ℕ) (s : CounterState) : Prop :=
  match s.lockedUntil with
  | none => now ≠ s.windowStart + config.windowSeconds
  | some u => u ≤ now → s.windowStart + config.windowSeconds ≤ now

/-- The lock that a count sets. -/
def locks (config : RateLimitConfig) (now n : ℕ) : Option ℕ :=
  if config.maxRequests < n then config.lockoutSeconds.map (addU64 now) else none

theorem locks_eq_map (config : RateLimitConfig) (now n : ℕ) :
    locks config now n =
      (if config.maxRequests < n then config.lockoutSeconds else none).map (addU64 now) := by
  unfold locks
  split <;> rfl

/-- A count that locks does so for the lockout. -/
theorem exists_of_locks {n u : ℕ} (h : locks config now n = some u) :
    config.maxRequests < n ∧ ∃ lockout, config.lockoutSeconds = some lockout ∧
      addU64 now lockout = u := by
  unfold locks at h
  split at h
  · next hn => exact ⟨hn, Option.map_eq_some_iff.mp h⟩
  · cases h

/-- The entry of a window that started at `start`, after its request number `n`. -/
def counted (config : RateLimitConfig) (now start n : ℕ) : CounterState :=
  ⟨n, start, locks config now n⟩

section

variable {config : RateLimitConfig} {now : ℕ} {start : ℕ}

theorem countUp_fresh : (CounterState.fresh now).countUp config now = counted config now now 1 := by
  simp only [CounterState.countUp, CounterState.fresh, Nat.sub_self, Nat.not_lt_zero, ↓reduceIte,
    Nat.zero_add, show min 1 u64Max = 1 by decide, counted, locks]
  cases config.lockoutSeconds <;> split <;> simp_all

theorem countUp_inside (hs : s.lockedUntil = none)
    (hin : now - s.windowStart ≤ config.windowSeconds) (hlt : s.count < 2 ^ 63) :
    s.countUp config now = counted config now s.windowStart (s.count + 1) := by
  have hmin : min (s.count + 1) u64Max = s.count + 1 := by unfold u64Max; omega
  obtain ⟨count, start, locked⟩ := s
  subst hs
  simp only [CounterState.countUp, Nat.not_lt.mpr hin, ↓reduceIte, hmin, counted, locks]
  cases config.lockoutSeconds <;> split <;> simp_all

theorem countUp_over (hs : s.lockedUntil = none)
    (hover : config.windowSeconds < now - s.windowStart) :
    s.countUp config now = counted config now now 1 := by
  obtain ⟨count, start, locked⟩ := s
  subst hs
  simp only [CounterState.countUp, hover, ↓reduceIte, counted, locks]
  cases config.lockoutSeconds <;> split <;> simp_all

theorem counted_wellFormed {n : ℕ} (hpos : 1 ≤ n) (hlt : n < 2 ^ 63)
    (hmax : config.lockoutSeconds.isSome → n ≤ config.maxRequests + 1) :
    (counted config now start n).WellFormed config where
  count_pos := hpos
  locked u hu := by
    obtain ⟨hn, lockout, hl, -⟩ := exists_of_locks hu
    have hsome : config.lockoutSeconds.isSome := by
      rw [hl]
      rfl
    have hone := hmax hsome
    exact ⟨hsome, by simp only [counted]; omega⟩
  locked_lt u hu := by
    obtain ⟨-, lockout, -, rfl⟩ := exists_of_locks hu
    exact Nat.mod_lt _ (by decide)
  unlocked hu hsome := by
    by_contra hn
    obtain ⟨lockout, hl⟩ := Option.isSome_iff_exists.mp hsome
    have hn : config.maxRequests < n := Nat.lt_of_not_le hn
    simp [counted, locks, hn, hl] at hu
  count_lt := hlt

/-! ## The keys in Redis -/

/-- The lock in Redis once a count has been taken. -/
def lockAfter (config : RateLimitConfig) (now n : ℕ) (lock : Option RedisEntry) :
    Option RedisEntry :=
  match if config.maxRequests < n then config.lockoutSeconds else none with
  | some lockout => some ⟨1, some (now + lockout)⟩
  | none => lock

theorem mirrors_counted {n : ℕ} (hwf : (counted config now start n).WellFormed config)
    (hlock : ∀ t, now ≤ t → lock.filter (·.live t) = none)
    (hfits : ∀ lockout ∈ config.lockoutSeconds, now + lockout < 2 ^ 64) :
    Mirrors config now (some (counted config now start n))
      (some ⟨n, some (start + config.windowSeconds)⟩) (lockAfter config now n lock) where
  counter_eq _ _ := rfl
  lock_eq t ht := by
    unfold lockAfter
    by_cases hn : config.maxRequests < n
    · cases hl : config.lockoutSeconds with
      | none => simp [hlock t ht, counted, locks, CounterState.lockEntry, hl]
      | some lockout =>
        have huntil : addU64 now lockout = now + lockout :=
          Nat.mod_eq_of_lt (hfits lockout (by simp [hl]))
        simp [hn, counted, locks, CounterState.lockEntry, hl, huntil]
    · simp [hn, hlock t ht, counted, locks, CounterState.lockEntry]
  wellFormed s hs := by
    cases hs
    exact hwf

end

/-! ## One increment -/

theorem buildKey_inj : buildKey keyPrefix k = buildKey keyPrefix k' ↔ k = k' := by
  rw [← String.toList_inj, ← String.toList_inj]
  simp [buildKey]

theorem buildLockKey_inj : buildLockKey keyPrefix k = buildLockKey keyPrefix k' ↔ k = k' := by
  rw [← String.toList_inj, ← String.toList_inj]
  simp [buildLockKey]

/-- A counter key is a lock key when the key itself says so. -/
theorem buildKey_eq_buildLockKey :
    buildKey keyPrefix k = buildLockKey keyPrefix k' ↔ k = "lock:" ++ k' := by
  rw [← String.toList_inj, ← String.toList_inj]
  simp [buildKey, buildLockKey]

theorem buildKey_ne_buildLockKey (keyPrefix k : String) :
    buildKey keyPrefix k ≠ buildLockKey keyPrefix k := by
  rw [Ne, buildKey_eq_buildLockKey]
  intro h
  have := congrArg String.length h
  simp at this

/-- What counting a request in Redis answers and leaves behind. -/
structure CountsTo (keyPrefix : String) (config : RateLimitConfig) (now : ℕ) (key : String)
    (db : Redis) (n : ℕ) (counter : RedisEntry) (o : IncrementOutcome) (db' : Redis) : Prop where
  outcome : o = ⟨n, locks config now n⟩
  counter_eq : db' (buildKey keyPrefix key) = some counter
  lock_eq : db' (buildLockKey keyPrefix key) =
    lockAfter config now n (db (buildLockKey keyPrefix key))
  frame : ∀ k, k ≠ buildKey keyPrefix key → k ≠ buildLockKey keyPrefix key → db' k = db k

section

variable {keyPrefix : String} {config : RateLimitConfig} {now : ℕ} {key : String} {db : Redis}
  {e : RedisEntry}

/-- Behind the counter only the lock is written. -/
theorem countsTo_of_counter {n : ℕ} {counter : RedisEntry} {db₁ : Redis}
    (hdb : db₁ = Function.update db (buildKey keyPrefix key) (some counter)) :
    ∃ o db', (match if config.maxRequests < n then config.lockoutSeconds else none with
      | some lockout => Except.ok (⟨n, some (addU64 now lockout)⟩,
          db₁.setEx now (buildLockKey keyPrefix key) 1 lockout)
      | none => .ok (⟨n, none⟩, db₁)) = (.ok (o, db') : Except RateLimitError _) ∧
      CountsTo keyPrefix config now key db n counter o db' := by
  have hne := buildKey_ne_buildLockKey keyPrefix key
  subst hdb
  cases hl : if config.maxRequests < n then config.lockoutSeconds else none with
  | none =>
    exact ⟨_, _, rfl, by simp [locks_eq_map, hl], by simp, by simp [lockAfter, hl, hne.symm],
      fun k hk _ => by simp [hk]⟩
  | some lockout =>
    exact ⟨_, _, rfl, by simp [locks_eq_map, hl], by simp [Redis.setEx, hne],
      by simp [lockAfter, hl, Redis.setEx], fun k hk hk' => by simp [Redis.setEx, hk, hk']⟩

theorem redisCount_live (hfind : db.find now (buildKey keyPrefix key) = some e)
    (hpos : 1 ≤ e.value) (hlt : e.value + 1 < 2 ^ 63) :
    ∃ o db', redisCount keyPrefix config now key db = .ok (o, db') ∧
      CountsTo keyPrefix config now key db (e.value + 1) { e with value := e.value + 1 } o db' := by
  simp only [redisCount, Redis.incr, hfind, Option.getD_some, hlt, ↓reduceIte,
    show ¬ e.value + 1 = 1 by omega]
  exact countsTo_of_counter rfl

theorem redisCount_live_lt (hfind : db.find now (buildKey keyPrefix key) = some e)
    (hok : ∀ err, redisCount keyPrefix config now key db ≠ .error err) : e.value + 1 < 2 ^ 63 := by
  by_contra hge
  apply hok (.redisOperation "ERR increment or decrement would overflow")
  have hincr : db.incr now (buildKey keyPrefix key) =
      .error "ERR increment or decrement would overflow" := by
    simp only [Redis.incr, hfind, Option.getD_some, if_neg hge]
  simp only [redisCount, hincr]

theorem redisCount_absent (hfind : db.find now (buildKey keyPrefix key) = none)
    (hwindow : config.windowSeconds < 2 ^ 63) :
    ∃ o db', redisCount keyPrefix config now key db = .ok (o, db') ∧
      CountsTo keyPrefix config now key db 1 ⟨1, some (now + config.windowSeconds)⟩ o db' := by
  simp only [redisCount, Redis.incr, hfind, Option.getD_none, Nat.zero_add,
    show (1 : ℕ) < 2 ^ 63 by decide, ↓reduceIte]
  have hseconds : asI64 config.windowSeconds = config.windowSeconds := if_pos hwindow
  refine countsTo_of_counter ?_
  simp [Redis.expire, Redis.find, Option.filter, RedisEntry.live, hseconds]

end

/-- An increment of both stores: Redis answers, touches no other key, and its count is the one in
memory exactly when the increment is clear of the window's end; then the two states match again. -/
structure Agrees (keyPrefix : String) (config : RateLimitConfig) (now : ℕ) (key : String)
    (m : Option CounterState) (db : Redis) (o : IncrementOutcome) (db' : Redis) : Prop where
  clear_of_count : o.count = ((m.getD (.fresh now)).next config now).count →
    ∀ s ∈ m, s.Clear config now
  outcome : (∀ s ∈ m, s.Clear config now) →
    o = ⟨((m.getD (.fresh now)).next config now).count,
      ((m.getD (.fresh now)).next config now).lockedUntil⟩
  mirrors : (∀ s ∈ m, s.Clear config now) →
    Mirrors config now (some ((m.getD (.fresh now)).next config now))
      (db' (buildKey keyPrefix key)) (db' (buildLockKey keyPrefix key))
  frame : ∀ k, k ≠ buildKey keyPrefix key → k ≠ buildLockKey keyPrefix key → db' k = db k

section

variable {keyPrefix : String} {config : RateLimitConfig} {now : ℕ} {key : String} {db : Redis}
  {m : Option CounterState} {o : IncrementOutcome} {db' : Redis}

/-- The two stores counted the same request of the same window. -/
theorem CountsTo.agrees {start n : ℕ}
    (h : CountsTo keyPrefix config now key db n ⟨n, some (start + config.windowSeconds)⟩ o db')
    (hclear : ∀ s ∈ m, s.Clear config now)
    (hnext : (m.getD (.fresh now)).next config now = counted config now start n)
    (hwf : (counted config now start n).WellFormed config)
    (hlock : ∀ t, now ≤ t → (db (buildLockKey keyPrefix key)).filter (·.live t) = none)
    (hfits : ∀ lockout ∈ config.lockoutSeconds, now + lockout < 2 ^ 64) :
    Agrees keyPrefix config now key m db o db' where
  clear_of_count _ := hclear
  outcome _ := by rw [h.outcome, hnext]; rfl
  mirrors _ := by
    rw [hnext, h.counter_eq, h.lock_eq]
    exact mirrors_counted hwf hlock hfits
  frame := h.frame

/-- The two stores counted different requests. -/
theorem CountsTo.disagrees {n : ℕ} {counter : RedisEntry}
    (h : CountsTo keyPrefix config now key db n counter o db')
    (hnot : ¬ ∀ s ∈ m, s.Clear config now)
    (hnext : ((m.getD (.fresh now)).next config now).count ≠ n) :
    Agrees keyPrefix config now key m db o db' where
  clear_of_count hc := by
    rw [h.outcome] at hc
    exact absurd hc.symm hnext
  outcome hclear := absurd hclear hnot
  mirrors hclear := absurd hclear hnot
  frame := h.frame

/-- A lock that memory does not hold, or that is over, is not in Redis from now on. -/
theorem Mirrors.lock_absent (h : Mirrors config now m counter lock)
    (hm : ∀ s ∈ m, ∀ u ∈ s.lockedUntil, u ≤ now) {t : ℕ} (ht : now ≤ t) :
    lock.filter (·.live t) = none := by
  rw [h.lock_eq t ht]
  cases m with
  | none => rfl
  | some s =>
    cases hu : s.lockedUntil with
    | none => simp [CounterState.lockEntry, hu]
    | some u =>
      have := hm s rfl u hu
      simp [CounterState.lockEntry, hu, Option.filter, RedisEntry.live]
      omega

/-- A window that is over has no counter in Redis. -/
theorem Mirrors.counter_absent (h : Mirrors config now m counter lock)
    (hm : ∀ s ∈ m, s.windowStart + config.windowSeconds ≤ now) :
    counter.filter (·.live now) = none := by
  rw [h.counter_eq now (Nat.le_refl _)]
  cases m with
  | none => rfl
  | some s =>
    have := hm s rfl
    simp [CounterState.counterEntry, Option.filter, RedisEntry.live]
    omega

/-- A window that is not over has its counter in Redis. -/
theorem Mirrors.counter_live (h : Mirrors config now (some s) counter lock)
    (hs : now < s.windowStart + config.windowSeconds) :
    counter.filter (·.live now) = some (s.counterEntry config) := by
  rw [h.counter_eq now (Nat.le_refl _)]
  simp [CounterState.counterEntry, Option.filter, RedisEntry.live]
  omega

/-- Without a lock, Redis counts. -/
theorem increment_of_lock_absent
    (h : (db (buildLockKey keyPrefix key)).filter (·.live now) = none) :
    (redisStorage keyPrefix).increment config now key db =
      redisCount keyPrefix config now key db := by
  simp [redisStorage, Redis.ttl, Redis.find, h]

/-- While the lock is active both stores answer its end and leave the count alone. -/
theorem increment_of_locked {u : ℕ} (hu : s.lockedUntil = some u) (hactive : now < u)
    (h : Mirrors config now (some s) (db (buildKey keyPrefix key)) (db (buildLockKey keyPrefix key))) :
    (redisStorage keyPrefix).increment config now key db = .ok (⟨s.count, some u⟩, db) := by
  have hwf := h.wellFormed s rfl
  obtain ⟨hsome, hcount⟩ := hwf.locked u hu
  have hlt := hwf.locked_lt u hu
  have hclt := hwf.count_lt
  have hlock : db.find now (buildLockKey keyPrefix key) = some ⟨1, some (u : ℤ)⟩ := by
    rw [Redis.find, h.lock_eq now (Nat.le_refl _)]
    simp [CounterState.lockEntry, hu, Option.filter, RedisEntry.live, hactive]
  have hget : (db.get now (buildKey keyPrefix key)).getD (addU64 config.maxRequests 1) = s.count := by
    by_cases hin : now < s.windowStart + config.windowSeconds
    · simp [Redis.get, Redis.find, h.counter_live hin, CounterState.counterEntry]
    · have habsent := h.counter_absent (fun s' hs' => by cases hs'; omega)
      simp only [Redis.get, Redis.find, habsent, Option.map_none, Option.getD_none, addU64]
      omega
  have huntil : addU64 now ((u : ℤ) - now).toNat = u := by
    unfold addU64
    omega
  simp only [redisStorage, Redis.ttl, hlock, hsome, hget, huntil, true_and]
  rw [if_pos (by omega)]

theorem increment_agrees
    (h : Mirrors config now m (db (buildKey keyPrefix key)) (db (buildLockKey keyPrefix key)))
    (hwindow : config.windowSeconds < 2 ^ 63)
    (hfits : ∀ lockout ∈ config.lockoutSeconds, now + lockout < 2 ^ 64)
    (hok : ∀ err, (redisStorage keyPrefix).increment config now key db ≠ .error err) :
    ∃ o db', (redisStorage keyPrefix).increment config now key db = .ok (o, db') ∧
      Agrees keyPrefix config now key m db o db' := by
  have hone : (counted config now now 1).WellFormed config :=
    counted_wellFormed (Nat.le_refl 1) (by decide) (fun _ => by omega)
  cases m with
  | none =>
    have hlock {t : ℕ} (ht : now ≤ t) := h.lock_absent (by simp) ht
    rw [increment_of_lock_absent (hlock (Nat.le_refl _))]
    obtain ⟨o, db', hredis, hc⟩ :=
      redisCount_absent (h.counter_absent (by simp)) hwindow
    exact ⟨o, db', hredis, hc.agrees (by simp) countUp_fresh hone (fun _ ht => hlock ht) hfits⟩
  | some s =>
    have hwf := h.wellFormed s rfl
    cases hu : s.lockedUntil with
    | none =>
      have hlock {t : ℕ} (ht : now ≤ t) := h.lock_absent (by simp [hu]) ht
      have hnext : ((some s).getD (.fresh now)).next config now = s.countUp config now := by
        simp [CounterState.next, hu]
      have hclear : (∀ s' ∈ some s, s'.Clear config now) ↔
          now ≠ s.windowStart + config.windowSeconds := by simp [CounterState.Clear, hu]
      rw [increment_of_lock_absent (hlock (Nat.le_refl _))] at hok ⊢
      rcases Nat.lt_trichotomy now (s.windowStart + config.windowSeconds) with hin | hlast | hover
      · have hlt := redisCount_live_lt (h.counter_live hin) hok
        obtain ⟨o, db', hredis, hc⟩ := redisCount_live (h.counter_live hin) hwf.count_pos hlt
        refine ⟨o, db', hredis, hc.agrees (hclear.mpr (by omega)) ?_ ?_ (fun _ ht => hlock ht) hfits⟩
        · rw [hnext, countUp_inside hu (by omega) hwf.count_lt]
          rfl
        · refine counted_wellFormed (by simp) hlt fun hsome => ?_
          have := hwf.unlocked hu hsome
          simp only [CounterState.counterEntry]
          omega
      · -- The last second: memory still counts on, the counter in Redis has just gone.
        obtain ⟨o, db', hredis, hc⟩ := redisCount_absent
          (h.counter_absent (fun s' hs' => by cases hs'; omega)) hwindow
        refine ⟨o, db', hredis, hc.disagrees (fun hall => hclear.mp hall hlast) ?_⟩
        rw [hnext, countUp_inside hu (by omega) hwf.count_lt]
        have := hwf.count_pos
        simp only [counted]
        omega
      · obtain ⟨o, db', hredis, hc⟩ := redisCount_absent
          (h.counter_absent (fun s' hs' => by cases hs'; omega)) hwindow
        refine ⟨o, db', hredis, hc.agrees (hclear.mpr (by omega)) ?_ hone (fun _ ht => hlock ht) hfits⟩
        rw [hnext, countUp_over hu (by omega)]
    | some u =>
      have hclear : (∀ s' ∈ some s, s'.Clear config now) ↔
          (u ≤ now → s.windowStart + config.windowSeconds ≤ now) := by
        simp [CounterState.Clear, hu]
      by_cases hactive : now < u
      · refine ⟨_, db, increment_of_locked hu hactive h, ?_⟩
        have hnext : ((some s).getD (.fresh now)).next config now = s := by
          simp [CounterState.next, hu, hactive]
        exact ⟨fun _ => hclear.mpr (by omega), fun _ => by rw [hnext, hu],
          fun _ => by rw [hnext]; exact h, fun _ _ _ => rfl⟩
      · have hlock {t : ℕ} (ht : now ≤ t) :=
          h.lock_absent (fun s' hs' u' hu' => by cases hs'; rw [hu] at hu'; cases hu'; omega) ht
        have hnext : ((some s).getD (.fresh now)).next config now = counted config now now 1 := by
          simp [CounterState.next, hu, hactive, countUp_fresh]
        rw [increment_of_lock_absent (hlock (Nat.le_refl _))] at hok ⊢
        by_cases hin : now < s.windowStart + config.windowSeconds
        · -- The lock ended inside its window: Redis goes on with the counter it still has.
          obtain ⟨o, db', hredis, hc⟩ := redisCount_live (h.counter_live hin) hwf.count_pos
            (redisCount_live_lt (h.counter_live hin) hok)
          refine ⟨o, db', hredis, hc.disagrees (fun hall => ?_) ?_⟩
          · have := hclear.mp hall
            omega
          · rw [hnext]
            have := hwf.count_pos
            simp only [counted, CounterState.counterEntry]
            omega
        · obtain ⟨o, db', hredis, hc⟩ := redisCount_absent
            (h.counter_absent (fun s' hs' => by cases hs'; omega)) hwindow
          exact ⟨o, db', hredis, hc.agrees (hclear.mpr (by omega)) hnext hone (fun _ ht => hlock ht) hfits⟩

end

/-- The calls on an entry at which the stores agree: an increment that is clear of the window's end,
a count asked for inside the window. -/
def Fits (config : RateLimitConfig) (now : ℕ) (m : Option CounterState) : Call → Prop
  | .increment _ => ∀ s ∈ m, s.Clear config now
  | .check _ => config.enabled → ∀ s ∈ m, s.Clear config now
  | .getCount _ => ∀ s ∈ m, now < s.windowStart + config.windowSeconds
  | .reset _ => True

/-! ## Runs -/

/-- The two stores behind the same calls, and the time of the last one. -/
structure Stores where
  memory : InMemoryStorage
  redis : Redis
  clock : ℕ

/-- Both stores empty. -/
def Stores.empty : Stores := ⟨∅, fun _ => none, 0⟩

/-- A call on both stores at the same time. -/
def Stores.step (keyPrefix : String) (config : RateLimitConfig) (s : Stores) (c : ℕ × Call) :
    Stores where
  memory := after inMemoryStorage config c.1 s.memory c.2
  redis := after (redisStorage keyPrefix) config c.1 s.redis c.2
  clock := c.1

/-- The calls the comparison is about: time does not go back, the commands of Redis succeed, and the
end of a lockout is a `u64`. -/
structure Stores.Regular (keyPrefix : String) (config : RateLimitConfig) (s : Stores)
    (c : ℕ × Call) : Prop where
  clock_le : s.clock ≤ c.1
  succeeds : ∀ err, reply (redisStorage keyPrefix) config c.1 s.redis c.2 ≠ .error err
  lockout_lt : ∀ lockout ∈ config.lockoutSeconds, c.1 + lockout < 2 ^ 64

/-- The two stores give the same answer. -/
def Stores.SameReply (keyPrefix : String) (config : RateLimitConfig) (s : Stores)
    (c : ℕ × Call) : Prop :=
  reply (redisStorage keyPrefix) config c.1 s.redis c.2 =
    reply inMemoryStorage config c.1 s.memory c.2

/-- Key by key, Redis looks as memory says. -/
def Stores.Match (keyPrefix : String) (config : RateLimitConfig) (K : String → Prop) (s : Stores) :
    Prop :=
  ∀ k, K k → Mirrors config s.clock (s.memory.lookup k) (s.redis (buildKey keyPrefix k))
    (s.redis (buildLockKey keyPrefix k))

theorem lookup_retain (p : CounterState → Bool) (data : InMemoryStorage) (k : String) :
    (retain p data).lookup k = (data.lookup k).filter p := by
  apply Option.ext
  intro s
  rw [Option.filter_eq_some_iff, ← Option.mem_def, ← Option.mem_def, AList.mem_lookup_iff,
    AList.mem_lookup_iff]
  simp [retain]

/-- The memory an increment works on: swept when it is full and the key is new. -/
def swept (config : RateLimitConfig) (now : ℕ) (key : String) (data : InMemoryStorage) :
    InMemoryStorage :=
  if sweepThreshold ≤ data.keys.length ∧ key ∉ data then retain (·.unfinished config now) data
  else data

/-- A sweep never touches the entry of the key that is counted. -/
theorem lookup_swept_self (config : RateLimitConfig) (now : ℕ) (key : String)
    (data : InMemoryStorage) : (swept config now key data).lookup key = data.lookup key := by
  unfold swept
  split
  · rename_i h
    rw [lookup_retain, AList.lookup_eq_none.mpr h.2]
    rfl
  · rfl

/-- What a sweep drops, Redis has already lost. -/
theorem mirrors_swept {now : ℕ} {key k : String} {data : InMemoryStorage}
    (h : Mirrors config now (data.lookup k) counter lock) :
    Mirrors config now ((swept config now key data).lookup k) counter lock := by
  unfold swept
  split
  · rw [lookup_retain]
    cases hs : data.lookup k with
    | none => rwa [hs] at h
    | some s =>
      rw [hs] at h
      by_cases hkeep : s.unfinished config now
      · simpa [Option.filter, hkeep] using h
      · simpa [Option.filter, hkeep] using h.drop (by simpa using hkeep)
  · exact h

section

variable {keyPrefix : String} {config : RateLimitConfig} {K : String → Prop} {s : Stores} {now : ℕ}
  {key : String}

theorem Stores.Match.later (h : s.Match keyPrefix config K) (hle : s.clock ≤ now) {k : String}
    (hk : K k) : Mirrors config now (s.memory.lookup k) (s.redis (buildKey keyPrefix k))
      (s.redis (buildLockKey keyPrefix k)) :=
  (h k hk).mono hle

/-- The entry of a key in memory after it is counted. -/
def Stores.nextState (config : RateLimitConfig) (now : ℕ) (key : String) (s : Stores) :
    CounterState :=
  ((s.memory.lookup key).getD (.fresh now)).next config now

theorem inMemory_increment :
    inMemoryStorage.increment config now key s.memory =
      .ok (⟨(s.nextState config now key).count, (s.nextState config now key).lockedUntil⟩,
        (swept config now key s.memory).insert key (s.nextState config now key)) := by
  have h := lookup_swept_self config now key s.memory
  simp only [swept] at h
  simp only [inMemoryStorage, Stores.nextState, swept, h]

/-- A matching pair of stores matches again after both counted a key. -/
theorem Stores.Match.increment (h : s.Match keyPrefix config K)
    (hkeys : ∀ k k', K k → K k' → k ≠ "lock:" ++ k') (hkey : K key) (hle : s.clock ≤ now)
    {o : IncrementOutcome} {db' : Redis}
    (hagrees : Agrees keyPrefix config now key (s.memory.lookup key) s.redis o db')
    (hclear : ∀ e ∈ s.memory.lookup key, e.Clear config now) :
    (Stores.mk ((swept config now key s.memory).insert key (s.nextState config now key)) db'
      now).Match keyPrefix config K := by
  intro k hk
  by_cases hkk : k = key
  · subst hkk
    simp only [AList.lookup_insert]
    exact hagrees.mirrors hclear
  · have hcounter : db' (buildKey keyPrefix k) = s.redis (buildKey keyPrefix k) := by
      apply hagrees.frame
      · rwa [Ne, buildKey_inj]
      · rw [Ne, buildKey_eq_buildLockKey]
        exact hkeys k key hk hkey
    have hlock : db' (buildLockKey keyPrefix k) = s.redis (buildLockKey keyPrefix k) := by
      apply hagrees.frame
      · rw [Ne, eq_comm, buildKey_eq_buildLockKey]
        exact hkeys key k hkey hk
      · rwa [Ne, buildLockKey_inj]
    simp only [AList.lookup_insert_ne hkk, hcounter, hlock]
    exact mirrors_swept (h.later hle hk)

theorem Stores.Match.reset (h : s.Match keyPrefix config K)
    (hkeys : ∀ k k', K k → K k' → k ≠ "lock:" ++ k') (hkey : K key) (hle : s.clock ≤ now) :
    (Stores.mk (s.memory.erase key)
      ((s.redis.del (buildKey keyPrefix key)).del (buildLockKey keyPrefix key))
      now).Match keyPrefix config K := by
  have hne := buildKey_ne_buildLockKey keyPrefix key
  intro k hk
  by_cases hkk : k = key
  · subst hkk
    simp only [AList.lookup_erase, Redis.del, Function.update_of_ne hne, Function.update_self]
    exact Mirrors.empty config now
  · have h₁ : buildKey keyPrefix k ≠ buildKey keyPrefix key := by rwa [Ne, buildKey_inj]
    have h₂ : buildKey keyPrefix k ≠ buildLockKey keyPrefix key := by
      rw [Ne, buildKey_eq_buildLockKey]
      exact hkeys k key hk hkey
    have h₃ : buildLockKey keyPrefix k ≠ buildKey keyPrefix key := by
      rw [Ne, eq_comm, buildKey_eq_buildLockKey]
      exact hkeys key k hkey hk
    have h₄ : buildLockKey keyPrefix k ≠ buildLockKey keyPrefix key := by rwa [Ne, buildLockKey_inj]
    simp only [AList.lookup_erase_ne hkk, Redis.del, Function.update_of_ne h₁,
      Function.update_of_ne h₂, Function.update_of_ne h₃, Function.update_of_ne h₄]
    exact h.later hle hk

/-- The count a response reports is the one the store answered. -/
theorem respond_currentCount (o : IncrementOutcome) :
    (respond config now o).currentCount = o.count := by
  unfold respond
  split <;> rfl

/-- A call on which the stores give the same answer exactly when it fits, and match again then. -/
structure Stores.Decided (keyPrefix : String) (config : RateLimitConfig) (K : String → Prop)
    (s : Stores) (c : ℕ × Call) : Prop where
  sameReply_iff : s.SameReply keyPrefix config c ↔ Fits config c.1 (s.memory.lookup c.2.key) c.2
  match_step : Fits config c.1 (s.memory.lookup c.2.key) c.2 →
    (s.step keyPrefix config c).Match keyPrefix config K

section

variable (h : s.Match keyPrefix config K)
include h

section

variable (hkeys : ∀ k k', K k → K k' → k ≠ "lock:" ++ k') (hwindow : config.windowSeconds < 2 ^ 63)
include hkeys hwindow

theorem Stores.Match.decided_increment (hkey : K key) (hreg : s.Regular keyPrefix config (now, .increment key)) :
    s.Decided keyPrefix config K (now, .increment key) := by
  obtain ⟨o, db', hredis, hagrees⟩ := increment_agrees (h.later hreg.clock_le hkey) hwindow
    hreg.lockout_lt (fun err herr => hreg.succeeds err (by simp only [reply, serve, herr]; rfl))
  constructor
  · simp only [Stores.SameReply, reply, serve, hredis, inMemory_increment, Except.map, Fits,
      Call.key]
    constructor
    · intro heq
      injection heq with heq
      injection heq with heq
      exact hagrees.clear_of_count (congrArg (·.count) heq)
    · intro hclear
      rw [hagrees.outcome hclear]
      rfl
  · intro hclear
    have hmatch := h.increment hkeys hkey hreg.clock_le hagrees hclear
    simpa [Stores.step, after, serve, hredis, inMemory_increment, Except.map] using hmatch

theorem Stores.Match.decided_check (hkey : K key) (hreg : s.Regular keyPrefix config (now, .check key)) :
    s.Decided keyPrefix config K (now, .check key) := by
  by_cases henabled : config.enabled
  · have hcheck {σ : Type} {B : StorageBackend σ} {t t' : σ} {o : IncrementOutcome}
        (hinc : B.increment config now key t = .ok (o, t')) :
        check B config now key t = .ok (respond config now o, t') := by
      simp only [check, henabled, hinc]
      rfl
    obtain ⟨o, db', hredis, hagrees⟩ := increment_agrees (h.later hreg.clock_le hkey) hwindow
      hreg.lockout_lt (fun err herr => hreg.succeeds err (by
        simp only [reply, serve, check, henabled, herr]
        rfl))
    constructor
    · simp only [Stores.SameReply, reply, serve, hcheck hredis, hcheck inMemory_increment, Except.map,
        Fits, henabled, forall_const, Call.key]
      constructor
      · intro heq
        injection heq with heq
        injection heq with heq
        have hcount := congrArg (·.currentCount) heq
        simp only [respond_currentCount] at hcount
        exact hagrees.clear_of_count hcount
      · intro hclear
        rw [hagrees.outcome hclear]
        rfl
    · intro hclear
      have hmatch := h.increment hkeys hkey hreg.clock_le hagrees (hclear henabled)
      simpa [Stores.step, after, serve, hcheck hredis, hcheck inMemory_increment, Except.map]
        using hmatch
  · -- A disabled limiter asks no store.
    constructor
    · simp [Stores.SameReply, reply, serve, check, henabled, Except.map, Fits]
    · intro _ k hk
      simpa [Stores.step, after, serve, check, henabled, Except.map] using h.later hreg.clock_le hk

end

theorem Stores.Match.decided_getCount (hkey : K key)
    (hle : s.clock ≤ now) : s.Decided keyPrefix config K (now, .getCount key) := by
  have hm := h.later hle hkey
  constructor
  · have hreply : s.SameReply keyPrefix config (now, .getCount key) ↔
        (s.redis.get now (buildKey keyPrefix key)).getD 0 =
          ((s.memory.lookup key).map (·.count)).getD 0 := by
      simp [Stores.SameReply, reply, serve, redisStorage, inMemoryStorage, Except.map]
    rw [hreply, Redis.get, Redis.find]
    cases hs : s.memory.lookup key with
    | none =>
      rw [hs] at hm
      simp [hm.counter_absent (by simp), Fits, Call.key, hs]
    | some e =>
      rw [hs] at hm
      by_cases hin : now < e.windowStart + config.windowSeconds
      · simp [hm.counter_live hin, Fits, Call.key, hs, hin, CounterState.counterEntry]
      · have habsent := hm.counter_absent (fun e' he' => by cases he'; omega)
        have hpos := (hm.wellFormed e rfl).count_pos
        simp [habsent, Fits, Call.key, hs, hin]
        omega
  · intro _ k hk
    simpa [Stores.step, after, serve, redisStorage, inMemoryStorage, Except.map]
      using h.later hle hk

theorem Stores.Match.decided_reset
    (hkeys : ∀ k k', K k → K k' → k ≠ "lock:" ++ k') (hkey : K key) (hle : s.clock ≤ now) :
    s.Decided keyPrefix config K (now, .reset key) := by
  constructor
  · simp [Stores.SameReply, reply, serve, redisStorage, inMemoryStorage, Except.map, Fits]
  · intro _
    simpa [Stores.step, after, serve, redisStorage, inMemoryStorage, Except.map]
      using h.reset hkeys hkey hle

/-- One call on matching stores. -/
theorem Stores.Match.decided
    (hkeys : ∀ k k', K k → K k' → k ≠ "lock:" ++ k') (hwindow : config.windowSeconds < 2 ^ 63)
    {c : ℕ × Call} (hkey : K c.2.key) (hreg : s.Regular keyPrefix config c) :
    s.Decided keyPrefix config K c := by
  obtain ⟨now, c⟩ := c
  cases c with
  | check key => exact h.decided_check hkeys hwindow hkey hreg
  | increment key => exact h.decided_increment hkeys hwindow hkey hreg
  | getCount key => exact h.decided_getCount hkey hreg.clock_le
  | reset key => exact h.decided_reset hkeys hkey hreg.clock_le

end

end

/-- Along every sequence of calls the two stores give the same answers exactly as long as each call
fits: no increment in the last second of a window or after a lockout that ended inside it, and no
count asked for once its window is over. -/
theorem stores_agree_iff (keyPrefix : String) (config : RateLimitConfig)
    (hwindow : config.windowSeconds < 2 ^ 63) (calls : List (ℕ × Call))
    (hkeys : ∀ c ∈ calls, ∀ c' ∈ calls, c.2.key ≠ "lock:" ++ c'.2.key)
    (hregular : Along (Stores.step keyPrefix config) (Stores.Regular keyPrefix config) .empty calls) :
    Along (Stores.step keyPrefix config) (Stores.SameReply keyPrefix config) .empty calls ↔
      Along (Stores.step keyPrefix config)
        (fun s c => Fits config c.1 (s.memory.lookup c.2.key) c.2) .empty calls := by
  let K : String → Prop := fun k => ∃ c ∈ calls, c.2.key = k
  have hK : ∀ k k', K k → K k' → k ≠ "lock:" ++ k' := by
    rintro _ _ ⟨c, hc, rfl⟩ ⟨c', hc', rfl⟩
    exact hkeys c hc c' hc'
  -- What every call of the run satisfies, beside the two conditions that are compared.
  let Q : Stores → ℕ × Call → Prop := fun s c => s.Regular keyPrefix config c ∧ K c.2.key
  have hQ : Along (Stores.step keyPrefix config) Q .empty calls :=
    hregular.and _ (along_of_forall_mem _ fun c hc => ⟨c, hc, rfl⟩)
  have hempty : Stores.empty.Match keyPrefix config K := fun k _ => Mirrors.empty config 0
  have hiff : Along (Stores.step keyPrefix config)
        (fun s c => Q s c ∧ s.SameReply keyPrefix config c) .empty calls ↔
      Along (Stores.step keyPrefix config)
        (fun s c => Q s c ∧ Fits config c.1 (s.memory.lookup c.2.key) c.2) .empty calls := by
    apply along_iff_of_invariant (I := Stores.Match keyPrefix config K)
    · intro s c hs ⟨hq, hfits⟩
      exact (hs.decided hK hwindow hq.2 hq.1).match_step hfits
    · intro s c hs
      exact and_congr_right fun hq => (hs.decided hK hwindow hq.2 hq.1).sameReply_iff
    · exact hempty
  constructor
  · intro h
    exact (hiff.mp (hQ.and _ h)).mono _ fun _ _ h => h.2
  · intro h
    exact (hiff.mpr (hQ.and _ h)).mono _ fun _ _ h => h.2

/-! ### Two requests at both ends of a window -/

/-- One request in ten seconds. -/
def oneInTen : RateLimitConfig := ⟨1, 10, true, none⟩

/-- Ten seconds after the first request memory refuses the second one, and Redis allows it. -/
theorem last_second_decisions :
    ¬ (∀ (keyPrefix : String) (config : RateLimitConfig) (calls : List (ℕ × Call)),
        Along (Stores.step keyPrefix config) (Stores.Regular keyPrefix config) .empty calls →
        Along (Stores.step keyPrefix config) (Stores.SameReply keyPrefix config) .empty calls) := by
  intro h
  have hreg : Along (Stores.step "rate_limit" oneInTen) (Stores.Regular "rate_limit" oneInTen)
      .empty [(0, .check "login"), (10, .check "login")] :=
    ⟨⟨Nat.le_refl 0, nofun, nofun⟩,
      ⟨Nat.zero_le 10, nofun, nofun⟩, trivial⟩
  have hsame := (h "rate_limit" oneInTen _ hreg).2.1
  injection hsame with hsame
  revert hsame
  decide +kernel

/-- A second before, both stores refuse it. -/
theorem stores_agree_inside :
    Along (Stores.step "rate_limit" oneInTen) (Stores.SameReply "rate_limit" oneInTen) .empty
      [(0, .check "login"), (9, .check "login")] := by
  apply (stores_agree_iff "rate_limit" oneInTen (by decide) _ (by decide) ?_).mpr
  · refine ⟨fun _ => nofun, fun _ s h => ?_, trivial⟩
    cases h
    exact show (9 : ℕ) ≠ 0 + 10 by decide
  · exact ⟨⟨Nat.le_refl 0, nofun, nofun⟩,
      ⟨Nat.zero_le 9, nofun, nofun⟩, trivial⟩

end Backbone.RateLimit
