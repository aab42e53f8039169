import Backbone.RateLimit.StoreAgreement

/-!
# What limiters over one store see of each other

Several `RateLimiter`s share a store: clones of one `InMemoryStorage`, or `RedisStorage` handles with
one prefix. A limiter is named by `RateLimitConfig::key`, but the store files a request under the
caller's key alone, a sweep measures every entry by the window of the limiter that triggers it, and
in Redis the lock of a key is filed under a name that is also the counter of another key.

This module finds the runs in which every limiter, and within it every key, is answered as if it were
alone.

Reference: `backbone-rate-limit/src/limiter.rs`, `storage.rs` and `redis_storage.rs`.
-/

namespace Backbone.RateLimit

open Machine

variable {rs : List Request}

/-! ## Requests -/

/-- `RateLimiter`: `config.key` and the rest of its configuration. -/
structure Limiter where
  key : String
  config : RateLimitConfig
deriving DecidableEq, Repr

/-- The calls of a limiter. -/
inductive LimiterCall where
  | check (key : String)
  | reset (key : String)
deriving DecidableEq, Repr

/-- The call on the limiter's store. -/
def LimiterCall.toCall : LimiterCall → Call
  | .check key => .check key
  | .reset key => .reset key

/-- A call of a limiter at a reading of the clock. -/
structure Request where
  limiter : Limiter
  call : LimiterCall
  now : ℕ
deriving DecidableEq, Repr

namespace Request

/-- The key a request names. -/
def key (r : Request) : String := r.call.toCall.key

/-- A limiter that is off answers without its store. -/
def reaches (r : Request) : Bool :=
  match r.call with
  | .check _ => r.limiter.config.enabled
  | .reset _ => true

/-- Does the request read or write the lock of its key in Redis? -/
def usesLock (r : Request) : Bool :=
  match r.call with
  | .check _ => r.limiter.config.enabled && r.limiter.config.lockoutSeconds.isSome
  | .reset _ => true

/-- Does the request find the memory full and its key new? -/
def sweeps (r : Request) (data : InMemoryStorage) : Bool :=
  match r.call with
  | .check key => r.limiter.config.enabled && decide (sweepThreshold ≤ data.keys.length ∧ key ∉ data)
  | .reset _ => false

/-- One request; the last reading of the clock is kept beside the store. -/
def step {σ : Type} (B : StorageBackend σ) (s : ℕ × σ) (r : Request) : ℕ × σ :=
  (r.now, after B r.limiter.config r.now s.2 r.call.toCall)

/-- What a request is answered. -/
def answer {σ : Type} (B : StorageBackend σ) (s : ℕ × σ) (r : Request) :
    Except RateLimitError Reply :=
  reply B r.limiter.config r.now s.2 r.call.toCall

/-- Is it a request of this limiter? -/
def isOf (ℓ : Limiter) (r : Request) : Bool := r.limiter == ℓ

/-- Is it a request of this limiter for this key? -/
def isFor (ℓ : Limiter) (k : String) (r : Request) : Bool := r.limiter == ℓ && r.key == k

theorem key_of_check (r : Request) {k : String} (h : r.call = .check k) : r.key = k := by
  rw [Request.key, h]
  rfl

theorem key_of_reset (r : Request) {k : String} (h : r.call = .reset k) : r.key = k := by
  rw [Request.key, h]
  rfl

end Request

/-- The party that makes the requests `own` is answered as if it were alone. -/
def AnsweredAlone {σ : Type} (B : StorageBackend σ) (s : ℕ × σ) (rs : List Request)
    (own : Request → Bool) : Prop :=
  outputs (Request.step B) (Request.answer B) own s rs =
    outputs (Request.step B) (Request.answer B) own s (rs.filter own)

/-- Every limiter is answered as if it were alone, and so is each of its keys. -/
def Isolated {σ : Type} (B : StorageBackend σ) (s : ℕ × σ) (rs : List Request) : Prop :=
  ∀ ℓ, AnsweredAlone B s rs (Request.isOf ℓ) ∧ ∀ k, AnsweredAlone B s rs (Request.isFor ℓ k)

/-- No two limiters file requests under one key. -/
def KeysApart (rs : List Request) : Prop :=
  ∀ r ∈ rs, ∀ r' ∈ rs, r.reaches → r'.reaches → r.key = r'.key → r.limiter = r'.limiter

/-- No counter is filed under the name of a lock. -/
def LocksApart (rs : List Request) : Prop :=
  ∀ r ∈ rs, ∀ r' ∈ rs, r.reaches → r'.usesLock → r.key ≠ "lock:" ++ r'.key

/-- The clock does not go back, and a sweep drops no entry that is unfinished for the limiter whose
requests are filed under its key. -/
structure SweepsFinished (rs : List Request) (s : ℕ × InMemoryStorage) (r : Request) : Prop where
  clock : s.1 ≤ r.now
  sweep : r.sweeps s.2 → ∀ r' ∈ rs, r'.reaches → ∀ e ∈ s.2.lookup r'.key,
    e.unfinished r'.limiter.config r.now → e.unfinished r.limiter.config r.now

attribute [local simp] Request.step Request.answer Request.reaches Request.usesLock reply after serve
  LimiterCall.toCall check Except.map

/-! ## In memory -/

section Memory

variable {config : RateLimitConfig} {now : ℕ} {t : ℕ} {s : CounterState}

/-- The entry of a key while it matters. -/
def active (config : RateLimitConfig) (now : ℕ) (m : Option CounterState) : Option CounterState :=
  m.filter (·.unfinished config now)

theorem unfinished_mono (hle : t ≤ now)
    (h : s.unfinished config now = true) : s.unfinished config t = true := by
  simp only [CounterState.unfinished, Bool.or_eq_true, decide_eq_true_eq, Option.any_eq_true] at h ⊢
  rcases h with ⟨u, hu, hlt⟩ | hin
  · exact .inl ⟨u, hu, by omega⟩
  · exact .inr (by omega)

theorem active_active (hle : t ≤ now) (m : Option CounterState) :
    active config now (active config t m) = active config now m := by
  cases m with
  | none => rfl
  | some s =>
    by_cases hs : s.unfinished config now = true
    · simp [active, Option.filter, hs, unfinished_mono hle hs]
    · by_cases ht : s.unfinished config t = true
      · simp [active, Option.filter, hs, ht]
      · simp [active, Option.filter, hs, ht]

/-- Entries that matter alike go on to matter alike. -/
theorem active_mono (hle : t ≤ now) {m m' : Option CounterState}
    (h : active config t m = active config t m') : active config now m = active config now m' := by
  rw [← active_active hle m, h, active_active hle]

/-- A finished entry is counted as if it were new. -/
theorem next_of_finished (h : s.unfinished config now = false) :
    s.next config now = (CounterState.fresh now).countUp config now := by
  obtain ⟨count, start, locked⟩ := s
  simp only [CounterState.unfinished, Bool.or_eq_false_iff, decide_eq_false_iff_not,
    Nat.not_le] at h
  cases locked with
  | none => rw [CounterState.next, countUp_over (s := ⟨count, start, none⟩) rfl h.2, countUp_fresh]
  | some u =>
    have hover : ¬ now < u := by simpa using h.1
    simp [CounterState.next, hover]

/-- Counting reads the entry only while it matters. -/
theorem next_eq_active (m : Option CounterState) :
    (m.getD (.fresh now)).next config now =
      ((active config now m).map (·.next config now)).getD
        ((CounterState.fresh now).countUp config now) := by
  cases m with
  | none => rfl
  | some s =>
    by_cases hs : s.unfinished config now = true
    · simp [active, Option.filter, hs]
    · simp [active, Option.filter, hs, next_of_finished (Bool.eq_false_iff.mpr hs)]

theorem active_lookup_swept (config : RateLimitConfig) (now : ℕ) (key k : String)
    (data : InMemoryStorage) :
    active config now ((swept config now key data).lookup k) = active config now (data.lookup k) := by
  unfold swept
  split
  · rw [lookup_retain]
    exact active_active (Nat.le_refl _) _
  · rfl

/-- The limiter `ℓ` sees the same under its keys `K`. -/
def SameActive (ℓ : Limiter) (K : String → Prop) (s t : ℕ × InMemoryStorage) : Prop :=
  ∀ k, K k → active ℓ.config s.1 (s.2.lookup k) = active ℓ.config s.1 (t.2.lookup k)

variable {ℓ : Limiter} {K : String → Prop} {s t : ℕ × InMemoryStorage} {r : Request}

theorem check_memory (hcall : r.call = .check r.key) (hreach : r.reaches = true)
    (s : ℕ × InMemoryStorage) :
    let entry := ((s.2.lookup r.key).getD (.fresh r.now)).next r.limiter.config r.now
    r.answer inMemoryStorage s =
        .ok (.response (respond r.limiter.config r.now ⟨entry.count, entry.lockedUntil⟩)) ∧
      r.step inMemoryStorage s =
        (r.now, (swept r.limiter.config r.now r.key s.2).insert r.key entry) := by
  have hcount : inMemoryStorage.increment r.limiter.config r.now r.key s.2 = _ :=
    inMemory_increment (s := ⟨s.2, fun _ => none, 0⟩)
  have henabled : r.limiter.config.enabled = true := by simpa [hcall] using hreach
  simp only [Request.answer, Request.step, reply, after, serve, hcall, LimiterCall.toCall, check,
    henabled, Bool.not_true, Bool.false_eq_true, if_false, hcount, Stores.nextState]
  exact ⟨rfl, rfl⟩

theorem SameActive.own (h : SameActive ℓ K s t) (hclock : s.1 ≤ r.now) (hr : r.limiter = ℓ)
    (hkey : r.reaches → K r.key) :
    r.answer inMemoryStorage s = r.answer inMemoryStorage t ∧
      SameActive ℓ K (r.step inMemoryStorage s) (r.step inMemoryStorage t) := by
  subst hr
  have hactive {k : String} (hk : K k) : active r.limiter.config r.now (s.2.lookup k) =
      active r.limiter.config r.now (t.2.lookup k) := active_mono hclock (h k hk)
  by_cases hreach : r.reaches = true
  · cases hcall : r.call with
    | check key =>
      obtain rfl := r.key_of_check hcall
      have hentry : ((s.2.lookup r.key).getD (.fresh r.now)).next r.limiter.config r.now =
          ((t.2.lookup r.key).getD (.fresh r.now)).next r.limiter.config r.now := by
        rw [next_eq_active, next_eq_active, hactive (hkey hreach)]
      obtain ⟨hs, hs'⟩ := check_memory hcall hreach s
      obtain ⟨ht, ht'⟩ := check_memory hcall hreach t
      refine ⟨by rw [hs, ht, hentry], ?_⟩
      intro k hk
      rw [hs', ht', hentry]
      by_cases hkk : k = r.key
      · subst hkk
        simp
      · simp only [AList.lookup_insert_ne hkk, active_lookup_swept]
        exact hactive hk
    | reset key =>
      refine ⟨by simp [hcall, inMemoryStorage], ?_⟩
      intro k hk
      simp only [Request.step, after, serve, hcall, LimiterCall.toCall, inMemoryStorage, Except.map]
      by_cases hkk : k = key
      · subst hkk
        simp
      · rw [AList.lookup_erase_ne hkk, AList.lookup_erase_ne hkk]
        exact hactive hk
  · -- The limiter is off.
    cases hcall : r.call with
    | check key =>
      have hoff : r.limiter.config.enabled = false := by simpa [hcall] using hreach
      refine ⟨by simp [hcall, hoff], ?_⟩
      intro k hk
      simpa [hcall, hoff]
        using hactive hk
    | reset key => simp [hcall] at hreach

theorem SameActive.other (h : SameActive ℓ K s t) (hclock : s.1 ≤ r.now)
    (hkey : r.reaches → ¬ K r.key)
    (hsweep : r.sweeps s.2 → ∀ k, K k → ∀ e ∈ s.2.lookup k, e.unfinished ℓ.config r.now →
      e.unfinished r.limiter.config r.now) :
    SameActive ℓ K (r.step inMemoryStorage s) t := by
  intro k hk
  have hactive : active ℓ.config r.now (s.2.lookup k) = active ℓ.config r.now (t.2.lookup k) :=
    active_mono hclock (h k hk)
  change active ℓ.config r.now ((r.step inMemoryStorage s).2.lookup k) =
    active ℓ.config r.now (t.2.lookup k)
  refine Eq.trans ?_ hactive
  by_cases hreach : r.reaches = true
  · have hne : k ≠ r.key := by
      rintro rfl
      exact hkey hreach hk
    cases hcall : r.call with
    | check key =>
      obtain rfl := r.key_of_check hcall
      rw [(check_memory hcall hreach s).2, AList.lookup_insert_ne hne]
      unfold swept
      split
      · rename_i hfull
        have hswept : r.sweeps s.2 = true := by
          have : r.limiter.config.enabled = true := by simpa [hcall] using hreach
          simpa [Request.sweeps, hcall, this] using hfull
        -- What the sweep drops does not matter to `ℓ`.
        rw [lookup_retain]
        cases he : s.2.lookup k with
        | none => rfl
        | some e =>
          by_cases hown : e.unfinished ℓ.config r.now = true
          · have := hsweep hswept k hk e he hown
            simp [Option.filter, this]
          · by_cases hkeep : e.unfinished r.limiter.config r.now = true
            · simp [Option.filter, hkeep]
            · simp [active, Option.filter, hkeep, hown]
      · rfl
    | reset key =>
      obtain rfl := r.key_of_reset hcall
      simp only [Request.step, after, serve, hcall, LimiterCall.toCall, inMemoryStorage, Except.map,
        AList.lookup_erase_ne hne]
  · cases hcall : r.call with
    | check key =>
      have hoff : r.limiter.config.enabled = false := by simpa [hcall] using hreach
      simp [hcall, hoff]
    | reset key => simp [hcall] at hreach

/-- A limiter's requests for the keys `K`, of which no other request reaches one. -/
theorem answeredAlone_memory {own : Request → Bool}
    (hown : ∀ r ∈ rs, own r = true → r.limiter = ℓ ∧ (r.reaches → K r.key))
    (hother : ∀ r ∈ rs, own r = false → r.reaches → ¬ K r.key)
    (hkeys : ∀ k, K k → ∃ r ∈ rs, r.reaches ∧ r.limiter = ℓ ∧ r.key = k)
    (h : Along (Request.step inMemoryStorage) (SweepsFinished rs) s rs) :
    AnsweredAlone inMemoryStorage s rs own := by
  have hmem : Along (Request.step inMemoryStorage) (fun _ r => r ∈ rs) s rs :=
    along_of_forall_mem _ fun r hr => hr
  refine outputs_filter (R := SameActive ℓ K) _ ?_ ?_ (fun k _ => rfl) (h.and _ hmem)
  · rintro s t r hsame ⟨hsweep, hr⟩ hr'
    obtain ⟨hlimiter, hkey⟩ := hown r hr hr'
    exact hsame.own hsweep.clock hlimiter hkey
  · rintro s t r hsame ⟨hsweep, hr⟩ hr'
    refine hsame.other hsweep.clock (hother r hr hr') fun hs k hk e he hun => ?_
    obtain ⟨r', hr', hreach, hlimiter, rfl⟩ := hkeys k hk
    exact hsweep.sweep hs r' hr' hreach e he (hlimiter ▸ hun)

theorem isolated_memory (hkeys : KeysApart rs)
    (h : Along (Request.step inMemoryStorage) (SweepsFinished rs) s rs) :
    Isolated inMemoryStorage s rs := by
  intro ℓ
  constructor
  · refine answeredAlone_memory (ℓ := ℓ)
      (K := fun k => ∃ r ∈ rs, r.reaches ∧ r.limiter = ℓ ∧ r.key = k) ?_ ?_ (fun _ hk => hk) h
    · intro r hr hown
      have hlimiter : r.limiter = ℓ := by simpa [Request.isOf] using hown
      exact ⟨hlimiter, fun hreach => ⟨r, hr, hreach, hlimiter, rfl⟩⟩
    · rintro r hr hother hreach ⟨r', hr', hreach', hlimiter, hkey⟩
      rw [← hlimiter, hkeys r' hr' r hr hreach' hreach hkey] at hother
      simp [Request.isOf] at hother
  · intro k
    refine answeredAlone_memory (ℓ := ℓ)
      (K := fun k' => k' = k ∧ ∃ r ∈ rs, r.reaches ∧ r.limiter = ℓ ∧ r.key = k') ?_ ?_
      (fun _ hk => hk.2) h
    · intro r hr hown
      obtain ⟨hlimiter, hkey⟩ : r.limiter = ℓ ∧ r.key = k := by simpa [Request.isFor] using hown
      exact ⟨hlimiter, fun hreach => ⟨hkey, r, hr, hreach, hlimiter, rfl⟩⟩
    · rintro r hr hother hreach ⟨hk, r', hr', hreach', hlimiter, hkey⟩
      rw [← hlimiter, hkeys r' hr' r hr hreach' hreach hkey] at hother
      simp [Request.isFor, hk] at hother

end Memory

/-! ## In Redis -/

section Redis

variable {keyPrefix : String} {r : Request} {s : ℕ × Redis} {n : String}

/-- The names of Redis a request reads and writes. -/
def Request.names (keyPrefix : String) (r : Request) : List String :=
  (if r.reaches then [buildKey keyPrefix r.key] else []) ++
    if r.usesLock then [buildLockKey keyPrefix r.key] else []

theorem Request.mem_names : n ∈ r.names keyPrefix ↔
    (r.reaches ∧ n = buildKey keyPrefix r.key) ∨ (r.usesLock ∧ n = buildLockKey keyPrefix r.key) := by
  unfold Request.names
  split <;> split <;> simp_all

theorem Request.reaches_of_usesLock (h : r.usesLock = true) : r.reaches = true := by
  unfold Request.usesLock at h
  unfold Request.reaches
  cases hcall : r.call <;> simp_all

/-- Requests that share a name are requests of one limiter for one key. -/
theorem same_of_shared_name (hkeys : KeysApart rs) (hlocks : LocksApart rs) {r r' : Request}
    (hr : r ∈ rs) (hr' : r' ∈ rs) (h : n ∈ r.names keyPrefix)
    (h' : n ∈ r'.names keyPrefix) : r.limiter = r'.limiter ∧ r.key = r'.key := by
  have same (hreach : r.reaches = true) (hreach' : r'.reaches = true) (hk : r.key = r'.key) :
      r.limiter = r'.limiter ∧ r.key = r'.key := ⟨hkeys r hr r' hr' hreach hreach' hk, hk⟩
  rcases Request.mem_names.mp h with ⟨hreach, rfl⟩ | ⟨hlock, rfl⟩ <;>
    rcases Request.mem_names.mp h' with ⟨hreach', hn⟩ | ⟨hlock', hn⟩
  · exact same hreach hreach' (buildKey_inj.mp hn)
  · exact absurd (buildKey_eq_buildLockKey.mp hn) (hlocks r hr r' hr' hreach hlock')
  · exact absurd (buildKey_eq_buildLockKey.mp hn.symm) (hlocks r' hr' r hr hreach' hlock)
  · exact same (Request.reaches_of_usesLock hlock) (Request.reaches_of_usesLock hlock')
      (buildLockKey_inj.mp hn)

open Classical in
/-- The database cut down to some names. -/
noncomputable def Redis.only (N : String → Prop) (db : Redis) : Redis :=
  fun n => if N n then db n else none

variable {N : String → Prop} {db : Redis} {k : String} {config : RateLimitConfig} {now : ℕ}
  {key : String}

section

variable (hk : N k)
include hk

theorem Redis.only_update (e : Option RedisEntry) :
    Redis.only N (Function.update db k e) = Function.update (Redis.only N db) k e := by
  funext n
  by_cases hn : n = k
  · subst hn
    simp [Redis.only, hk]
  · simp [Redis.only, hn]

theorem Redis.find_only : (Redis.only N db).find now k = db.find now k := by
  simp [Redis.find, Redis.only, hk]

theorem Redis.ttl_only : (Redis.only N db).ttl now k = db.ttl now k := by
  rw [Redis.ttl, Redis.ttl, Redis.find_only hk]

theorem Redis.get_only : (Redis.only N db).get now k = db.get now k := by
  rw [Redis.get, Redis.get, Redis.find_only hk]

theorem Redis.incr_only :
    (Redis.only N db).incr now k = (db.incr now k).map fun p => (p.1, Redis.only N p.2) := by
  simp only [Redis.incr, Redis.find_only hk]
  split
  · simp only [Except.map, Redis.only_update hk]
  · rfl

theorem Redis.expire_only (seconds : ℤ) :
    (Redis.only N db).expire now k seconds = Redis.only N (db.expire now k seconds) := by
  rw [Redis.expire, Redis.expire, Redis.find_only hk, Redis.only_update hk]

theorem Redis.setEx_only (value seconds : ℕ) :
    (Redis.only N db).setEx now k value seconds = Redis.only N (db.setEx now k value seconds) := by
  rw [Redis.setEx, Redis.setEx, Redis.only_update hk]

theorem Redis.del_only : (Redis.only N db).del k = Redis.only N (db.del k) := by
  rw [Redis.del, Redis.del, Redis.only_update hk]

end

/-- A count over the limit locks the key out when a lockout is configured. -/
theorem isSome_of_lockout {count lockout : ℕ}
    (h : (if config.maxRequests < count then config.lockoutSeconds else none) = some lockout) :
    config.lockoutSeconds.isSome = true := by
  split at h
  · rw [h]
    rfl
  · cases h

theorem redisCount_only (hcounter : N (buildKey keyPrefix key))
    (hlock : config.lockoutSeconds.isSome → N (buildLockKey keyPrefix key)) :
    redisCount keyPrefix config now key (Redis.only N db) =
      (redisCount keyPrefix config now key db).map fun p => (p.1, Redis.only N p.2) := by
  unfold redisCount
  rw [Redis.incr_only hcounter]
  cases db.incr now (buildKey keyPrefix key) with
  | error e => rfl
  | ok p =>
    obtain ⟨count, db⟩ := p
    have hexpire : (if count = 1 then
          (Redis.only N db).expire now (buildKey keyPrefix key) (asI64 config.windowSeconds)
        else Redis.only N db) =
        Redis.only N (if count = 1 then
          db.expire now (buildKey keyPrefix key) (asI64 config.windowSeconds) else db) := by
      split
      · exact Redis.expire_only hcounter _
      · rfl
    simp only [Except.map, hexpire]
    cases hl : if config.maxRequests < count then config.lockoutSeconds else none with
    | none => rfl
    | some lockout =>
      simp only [Redis.setEx_only (hlock (isSome_of_lockout hl))]

theorem increment_only (hcounter : N (buildKey keyPrefix key))
    (hlock : config.lockoutSeconds.isSome → N (buildLockKey keyPrefix key)) :
    (redisStorage keyPrefix).increment config now key (Redis.only N db) =
      ((redisStorage keyPrefix).increment config now key db).map
        fun p => (p.1, Redis.only N p.2) := by
  simp only [redisStorage, redisCount_only hcounter hlock]
  by_cases hsome : config.lockoutSeconds.isSome = true
  · rw [Redis.ttl_only (hlock hsome), Redis.get_only hcounter]
    split <;> rfl
  · simp only [hsome, Bool.false_eq_true, false_and, if_false]

/-- A request works on its names alone. -/
theorem Request.step_only (hN : ∀ n ∈ r.names keyPrefix, N n) (s : ℕ × Redis) :
    r.answer (redisStorage keyPrefix) (s.1, Redis.only N s.2) =
        r.answer (redisStorage keyPrefix) s ∧
      (r.step (redisStorage keyPrefix) (s.1, Redis.only N s.2)).2 =
        Redis.only N (r.step (redisStorage keyPrefix) s).2 := by
  simp only [Request.mem_names] at hN
  cases hcall : r.call with
  | check key =>
    obtain rfl := r.key_of_check hcall
    cases henabled : r.limiter.config.enabled with
    | false =>
      simp [hcall, henabled]
    | true =>
      have hcounter := hN _ (.inl ⟨by simp [hcall, henabled], rfl⟩)
      have hlock (h : r.limiter.config.lockoutSeconds.isSome) :=
        hN _ (.inr ⟨by simp [hcall, henabled, h], rfl⟩)
      simp only [Request.answer, Request.step, reply, after, serve, hcall, LimiterCall.toCall, check,
        henabled, Bool.not_true, Bool.false_eq_true, if_false, increment_only hcounter hlock]
      cases (redisStorage keyPrefix).increment r.limiter.config r.now r.key s.2 <;> exact ⟨rfl, rfl⟩
  | reset key =>
    obtain rfl := r.key_of_reset hcall
    have hcounter := hN _ (.inl ⟨by simp [hcall], rfl⟩)
    have hlock := hN _ (.inr ⟨by simp [hcall], rfl⟩)
    simp [hcall, redisStorage, Redis.del_only hcounter, Redis.del_only hlock]

theorem redisCount_frame (hcounter : n ≠ buildKey keyPrefix key)
    (hlock : config.lockoutSeconds.isSome → n ≠ buildLockKey keyPrefix key)
    {o : IncrementOutcome} {db' : Redis}
    (h : redisCount keyPrefix config now key db = .ok (o, db')) : db' n = db n := by
  unfold redisCount Redis.incr at h
  split at h
  · cases h
  · rename_i count db₁ hincr
    have hincr : db₁ n = db n := by
      simp only at hincr
      split at hincr
      · cases hincr
        simp [hcounter]
      · cases hincr
    have hexpire : (if count = 1 then
        db₁.expire now (buildKey keyPrefix key) (asI64 config.windowSeconds) else db₁) n = db n := by
      split
      · simp [Redis.expire, hcounter, hincr]
      · exact hincr
    simp only at h
    split at h
    · rename_i lockout hl
      cases h
      simpa [Redis.setEx, hlock (isSome_of_lockout hl)] using hexpire
    · cases h
      exact hexpire

/-- A request leaves every other name alone. -/
theorem Request.step_frame (hn : n ∉ r.names keyPrefix) (s : ℕ × Redis) :
    (r.step (redisStorage keyPrefix) s).2 n = s.2 n := by
  simp only [Request.mem_names, not_or, not_and] at hn
  cases hcall : r.call with
  | check key =>
    obtain rfl := r.key_of_check hcall
    cases henabled : r.limiter.config.enabled with
    | false =>
      simp [hcall, henabled]
    | true =>
      have hcounter := hn.1 (by simp [hcall, henabled])
      have hlock (h : r.limiter.config.lockoutSeconds.isSome) :=
        hn.2 (by simp [hcall, henabled, h])
      have hincr {o db'} (h : (redisStorage keyPrefix).increment r.limiter.config r.now r.key s.2 =
          .ok (o, db')) : db' n = s.2 n := by
        simp only [redisStorage] at h
        split at h
        · cases h
          rfl
        · exact redisCount_frame hcounter hlock h
      simp only [Request.step, after, serve, hcall, LimiterCall.toCall, check, henabled,
        Bool.not_true, Bool.false_eq_true, if_false]
      cases h : (redisStorage keyPrefix).increment r.limiter.config r.now r.key s.2 with
      | error e => rfl
      | ok p => exact hincr h
  | reset key =>
    obtain rfl := r.key_of_reset hcall
    have hcounter := hn.1 (by simp [hcall])
    have hlock := hn.2 (by simp [hcall])
    simp [hcall, redisStorage, Redis.del, hcounter, hlock]

/-- Requests that share no name with any other request. -/
theorem answeredAlone_redis {own : Request → Bool}
    (h : ∀ r ∈ rs, ∀ r' ∈ rs, own r = true → own r' = false → ∀ n ∈ r.names keyPrefix,
      n ∉ r'.names keyPrefix) : AnsweredAlone (redisStorage keyPrefix) s rs own := by
  let N : String → Prop := fun n => ∃ r ∈ rs, own r = true ∧ n ∈ r.names keyPrefix
  have hmem : Along (Request.step (redisStorage keyPrefix)) (fun _ r => r ∈ rs) s rs :=
    along_of_forall_mem _ fun r hr => hr
  refine outputs_filter (R := fun s t => Redis.only N s.2 = Redis.only N t.2) _ ?_ ?_ rfl hmem
  · intro s t r hsame hr hown
    have hN : ∀ n ∈ r.names keyPrefix, N n := fun n hn => ⟨r, hr, hown, hn⟩
    obtain ⟨ha, hs⟩ := Request.step_only hN s
    obtain ⟨ha', hs'⟩ := Request.step_only hN t
    rw [← ha, ← hs, ← ha', ← hs', hsame]
    exact ⟨rfl, rfl⟩
  · intro s t r hsame hr hother
    refine Eq.trans (funext fun n => ?_) hsame
    by_cases hn : N n
    · obtain ⟨r', hr', hown, hn'⟩ := hn
      have hframe := Request.step_frame (h r' hr' r hr hown hother n hn') s
      simp [Redis.only, hframe, -Request.step]
    · simp [Redis.only, hn]

theorem isolated_redis (hkeys : KeysApart rs) (hlocks : LocksApart rs) :
    Isolated (redisStorage keyPrefix) s rs := by
  intro ℓ
  constructor
  · refine answeredAlone_redis fun r hr r' hr' hown hother n hn hn' => ?_
    have hsame := (same_of_shared_name hkeys hlocks hr hr' hn hn').1
    simp only [Request.isOf, beq_iff_eq, beq_eq_false_iff_ne] at hown hother
    exact hother (hsame.symm.trans hown)
  · intro k
    refine answeredAlone_redis fun r hr r' hr' hown hother n hn hn' => ?_
    obtain ⟨hlimiter, hkey⟩ := same_of_shared_name hkeys hlocks hr hr' hn hn'
    simp only [Request.isFor, Bool.and_eq_true, beq_iff_eq] at hown
    simp [Request.isFor, ← hlimiter, ← hkey, hown] at hother

end Redis

/-! ## Both stores -/

/-- When no two limiters use one key, limiters over one `InMemoryStorage` do not interfere, nor do the
keys of a limiter, as long as the clock does not go back and no sweep drops what another limiter still
needs; over one Redis they do not interfere as long as no key is the name of another key's lock. -/
theorem limiters_isolated {rs : List Request} (hkeys : KeysApart rs) :
    (∀ s : ℕ × InMemoryStorage,
      Along (Request.step inMemoryStorage) (SweepsFinished rs) s rs →
        Isolated inMemoryStorage s rs) ∧
    (LocksApart rs → ∀ keyPrefix, ∀ s : ℕ × Redis, Isolated (redisStorage keyPrefix) s rs) :=
  ⟨fun _ h => isolated_memory hkeys h, fun h _ _ => isolated_redis hkeys h⟩

/-- A limiter on logins by address and one on uploads by user. -/
def logins : Limiter := ⟨"login", ⟨1, 60, true, some 300⟩⟩

def uploads : Limiter := ⟨"upload", ⟨1, 60, true, none⟩⟩

/-- Two attempts from an address lock it out; a user's uploads go on beside them. -/
def busyMinute : List Request :=
  [⟨logins, .check "10.0.0.7", 100⟩, ⟨uploads, .check "ada", 101⟩, ⟨logins, .check "10.0.0.7", 102⟩,
    ⟨uploads, .reset "ada", 103⟩, ⟨uploads, .check "ada", 104⟩]

theorem limiters_isolated_busyMinute :
    Isolated inMemoryStorage (0, ∅) busyMinute ∧
      Isolated (redisStorage "rate_limit") (0, fun _ => none) busyMinute := by
  have hkeys : KeysApart busyMinute := by unfold KeysApart; decide +kernel
  have hlocks : LocksApart busyMinute := by unfold LocksApart; decide +kernel
  have hsweeps : Along (Request.step inMemoryStorage) (SweepsFinished busyMinute) (0, ∅)
      busyMinute := by
    refine (show Along (Request.step inMemoryStorage)
        (fun s r => s.1 ≤ r.now ∧ r.sweeps s.2 = false) (0, ∅) busyMinute by
      decide +kernel).mono _ ?_
    rintro s r ⟨hclock, hsweep⟩
    exact ⟨hclock, fun h => by simp [hsweep] at h⟩
  exact ⟨(limiters_isolated hkeys).1 _ hsweeps, (limiters_isolated hkeys).2 hlocks _ _⟩

/-- A user who is also an address: what one limiter counted, the other limiter answers. -/
def sharedKey : List Request := [⟨logins, .check "ada", 100⟩, ⟨uploads, .check "ada", 101⟩]

/-- A login for the name that is the lock of another login. -/
def lockName : List Request :=
  [⟨logins, .check "ada", 100⟩, ⟨logins, .check "ada", 101⟩, ⟨logins, .check "lock:ada", 102⟩]

/-- Limiters with different keys interfere over either store, and in Redis two keys of one limiter do. -/
theorem limiters_interfere :
    (logins.key ≠ uploads.key ∧
      ¬ AnsweredAlone inMemoryStorage (0, ∅) sharedKey (Request.isOf uploads) ∧
      ¬ AnsweredAlone (redisStorage "rate_limit") (0, fun _ => none) sharedKey
        (Request.isOf uploads)) ∧
    ((∀ r ∈ lockName, r.limiter = logins) ∧
      ¬ AnsweredAlone (redisStorage "rate_limit") (0, fun _ => none) lockName
        (Request.isFor logins "lock:ada")) := by
  unfold AnsweredAlone
  refine ⟨⟨by decide, ?_, ?_⟩, by decide, ?_⟩ <;> decide +kernel

end Backbone.RateLimit
