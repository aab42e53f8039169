import Mathlib.Algebra.Group.Int.Defs
import Mathlib.Algebra.Group.Nat.Defs
import Mathlib.Data.List.AList

/-!
# The rate limiter and its two stores

Fixed-window counting with an optional lockout. `InMemoryStorage` keeps the start of the window and
the lock in a record; `RedisStorage` keeps a counter and a lock whose lifetimes are the times to
live of two keys. `RateLimiter::check` is the same over both.

Times are seconds, counts and durations are `u64`.

Reference: `backbone-rate-limit/src/types.rs`, `storage.rs`, `redis_storage.rs` and `limiter.rs`.
-/

namespace Backbone.RateLimit

/-! ## Types -/

/-- `RateLimitConfig`; `key` names the limiter and is read by neither store. -/
structure RateLimitConfig where
  maxRequests : ℕ
  windowSeconds : ℕ
  enabled : Bool
  lockoutSeconds : Option ℕ
deriving DecidableEq, Repr

/-- `IncrementOutcome`. -/
structure IncrementOutcome where
  count : ℕ
  lockedUntil : Option ℕ
deriving DecidableEq, Repr

/-- `RateLimitResponse`. -/
structure RateLimitResponse where
  allowed : Bool
  remaining : ℕ
  resetAt : Option ℕ
  message : Option String
  currentCount : ℕ
  exceeded : Bool
  lockedUntil : Option ℕ
deriving DecidableEq, Repr

/-- The failures of a store that its commands can meet. -/
inductive RateLimitError where
  | redisOperation (message : String)
deriving DecidableEq, Repr

/-- `StorageBackend`, with its state and the clock passed explicitly. -/
structure StorageBackend (σ : Type) where
  increment : RateLimitConfig → ℕ → String → σ → Except RateLimitError (IncrementOutcome × σ)
  getCount : RateLimitConfig → ℕ → String → σ → Except RateLimitError ℕ
  reset : RateLimitConfig → ℕ → String → σ → Except RateLimitError σ

/-- `u64::MAX`. -/
def u64Max : ℕ := 2 ^ 64 - 1

/-- `+` on `u64`, as a release build computes it. -/
def addU64 (a b : ℕ) : ℕ := (a + b) % 2 ^ 64

/-- `as i64` on a `u64`. -/
def asI64 (n : ℕ) : ℤ := if n < 2 ^ 63 then n else (n : ℤ) - 2 ^ 64

/-! ## In memory -/

/-- `CounterState`. -/
structure CounterState where
  count : ℕ
  windowStart : ℕ
  lockedUntil : Option ℕ
deriving DecidableEq, Repr

/-- `InMemoryStorage`: one entry for each key. -/
abbrev InMemoryStorage := AList fun _ : String => CounterState

/-- Entry count past which an increment for a new key first drops expired entries. -/
def sweepThreshold : ℕ := 10000

/-- `HashMap::retain`, on the values. -/
def retain (p : CounterState → Bool) (data : InMemoryStorage) : InMemoryStorage :=
  ⟨data.entries.filter fun e => p e.2, data.nodupKeys.sublist List.filter_sublist⟩

/-- What a sweep at `now` keeps: an active lockout or a window that is not over. -/
def CounterState.unfinished (config : RateLimitConfig) (now : ℕ) (s : CounterState) : Bool :=
  s.lockedUntil.any (now < ·) || decide (now - s.windowStart ≤ config.windowSeconds)

/-- The entry of a key that has none. -/
def CounterState.fresh (now : ℕ) : CounterState := ⟨0, now, none⟩

/-- Count one request, in a fresh window when the last one is over, and lock the key once the count
exceeds the limit. -/
def CounterState.countUp (config : RateLimitConfig) (now : ℕ) (s : CounterState) : CounterState :=
  let s := if config.windowSeconds < now - s.windowStart then
      { s with count := 1, windowStart := now }
    else { s with count := min (s.count + 1) u64Max }
  if config.maxRequests < s.count then
    match config.lockoutSeconds with
    | some lockout => { s with lockedUntil := some (addU64 now lockout) }
    | none => s
  else s

/-- An active lockout is left alone; one that has expired starts a fresh window. -/
def CounterState.next (config : RateLimitConfig) (now : ℕ) (s : CounterState) : CounterState :=
  match s.lockedUntil with
  | some u => if now < u then s else (CounterState.fresh now).countUp config now
  | none => s.countUp config now

/-- `InMemoryStorage` as a backend. -/
def inMemoryStorage : StorageBackend InMemoryStorage where
  increment config now key data :=
    let data := if sweepThreshold ≤ data.keys.length ∧ key ∉ data then
        retain (·.unfinished config now) data
      else data
    let state := ((data.lookup key).getD (.fresh now)).next config now
    .ok (⟨state.count, state.lockedUntil⟩, data.insert key state)
  getCount _ _ key data := .ok (((data.lookup key).map (·.count)).getD 0)
  reset _ _ key data := .ok (data.erase key)

/-! ## Redis -/

/-- A key of Redis: its value and when it expires. -/
structure RedisEntry where
  value : ℕ
  expireAt : Option ℤ
deriving DecidableEq, Repr

/-- A key that expires at `t` is absent from `t` on. -/
def RedisEntry.live (now : ℕ) (e : RedisEntry) : Bool := e.expireAt.all ((now : ℤ) < ·)

abbrev Redis := String → Option RedisEntry

namespace Redis

/-- The entry under a key that has not expired. -/
def find (db : Redis) (now : ℕ) (key : String) : Option RedisEntry :=
  (db key).filter (·.live now)

/-- `TTL`: `-2` without the key, `-1` without an expiry, else the seconds left. -/
def ttl (db : Redis) (now : ℕ) (key : String) : ℤ :=
  match db.find now key with
  | none => -2
  | some e =>
    match e.expireAt with
    | none => -1
    | some t => t - now

/-- `GET`. -/
def get (db : Redis) (now : ℕ) (key : String) : Option ℕ := (db.find now key).map (·.value)

/-- `INCR`: it keeps the expiry, and refuses to leave 64 signed bits. -/
def incr (db : Redis) (now : ℕ) (key : String) : Except String (ℕ × Redis) :=
  let e := (db.find now key).getD ⟨0, none⟩
  if e.value + 1 < 2 ^ 63 then
    .ok (e.value + 1, Function.update db key (some { e with value := e.value + 1 }))
  else .error "ERR increment or decrement would overflow"

/-- `EXPIRE`. -/
def expire (db : Redis) (now : ℕ) (key : String) (seconds : ℤ) : Redis :=
  Function.update db key
    ((db.find now key).map fun e => { e with expireAt := some (now + seconds) })

/-- `SETEX`. -/
def setEx (db : Redis) (now : ℕ) (key : String) (value seconds : ℕ) : Redis :=
  Function.update db key (some ⟨value, some (now + seconds)⟩)

/-- `DEL`. -/
def del (db : Redis) (key : String) : Redis := Function.update db key none

end Redis

/-- `RedisStorage::build_key`. -/
def buildKey (keyPrefix key : String) : String := keyPrefix ++ ":" ++ key

/-- `RedisStorage::build_lock_key`. -/
def buildLockKey (keyPrefix key : String) : String := keyPrefix ++ ":lock:" ++ key

/-- The part of `RedisStorage::increment` behind the lock. -/
def redisCount (keyPrefix : String) (config : RateLimitConfig) (now : ℕ) (key : String)
    (db : Redis) : Except RateLimitError (IncrementOutcome × Redis) :=
  match db.incr now (buildKey keyPrefix key) with
  | .error e => .error (.redisOperation e)
  | .ok (count, db) =>
    let db := if count = 1 then db.expire now (buildKey keyPrefix key) (asI64 config.windowSeconds)
      else db
    match if config.maxRequests < count then config.lockoutSeconds else none with
    | some lockout => .ok (⟨count, some (addU64 now lockout)⟩,
        db.setEx now (buildLockKey keyPrefix key) 1 lockout)
    | none => .ok (⟨count, none⟩, db)

/-- `RedisStorage` as a backend. -/
def redisStorage (keyPrefix : String) : StorageBackend Redis where
  increment config now key db :=
    let lockTtl := db.ttl now (buildLockKey keyPrefix key)
    if config.lockoutSeconds.isSome ∧ 0 ≤ lockTtl then
      let count := (db.get now (buildKey keyPrefix key)).getD (addU64 config.maxRequests 1)
      .ok (⟨count, some (addU64 now lockTtl.toNat)⟩, db)
    else redisCount keyPrefix config now key db
  getCount _ now key db := .ok ((db.get now (buildKey keyPrefix key)).getD 0)
  reset _ _ key db := .ok ((db.del (buildKey keyPrefix key)).del (buildLockKey keyPrefix key))

/-! ## The limiter -/

/-- The answer to a request that the store counted. -/
def respond (config : RateLimitConfig) (now : ℕ) (outcome : IncrementOutcome) :
    RateLimitResponse :=
  match outcome.lockedUntil.filter (now < ·) with
  -- An active lockout dominates.
  | some u =>
    { allowed := false, remaining := 0, resetAt := some u,
      message := some "Rate limit exceeded — locked out", currentCount := outcome.count,
      exceeded := true, lockedUntil := some u }
  | none =>
    let exceeded := decide (config.maxRequests < outcome.count)
    { allowed := !exceeded,
      remaining := if config.maxRequests ≤ outcome.count then 0
        else config.maxRequests - outcome.count,
      resetAt := some (addU64 now config.windowSeconds),
      message := if exceeded then some "Rate limit exceeded" else none,
      currentCount := outcome.count, exceeded, lockedUntil := none }

/-- `RateLimiter::check`. -/
def check {σ : Type} (B : StorageBackend σ) (config : RateLimitConfig) (now : ℕ) (key : String)
    (s : σ) : Except RateLimitError (RateLimitResponse × σ) :=
  if !config.enabled then
    .ok ({ allowed := true, remaining := config.maxRequests, resetAt := none, message := none,
           currentCount := 0, exceeded := false, lockedUntil := none }, s)
  else do
    let (outcome, s) ← B.increment config now key s
    return (respond config now outcome, s)

/-! ## Calls -/

/-- A call on the limiter or its store. -/
inductive Call where
  | check (key : String)
  | increment (key : String)
  | getCount (key : String)
  | reset (key : String)
deriving DecidableEq, Repr

/-- The key a call names. -/
def Call.key : Call → String
  | .check key | .increment key | .getCount key | .reset key => key

/-- What a call answers. -/
inductive Reply where
  | response (r : RateLimitResponse)
  | outcome (o : IncrementOutcome)
  | count (n : ℕ)
  | done
deriving DecidableEq, Repr

/-- One call at `now`. A call that fails leaves the store as it was. -/
def serve {σ : Type} (B : StorageBackend σ) (config : RateLimitConfig) (now : ℕ) (s : σ) :
    Call → Except RateLimitError (Reply × σ)
  | .check key => (check B config now key s).map fun r => (.response r.1, r.2)
  | .increment key => (B.increment config now key s).map fun r => (.outcome r.1, r.2)
  | .getCount key => (B.getCount config now key s).map fun n => (.count n, s)
  | .reset key => (B.reset config now key s).map fun s => (.done, s)

/-- The answer to a call. -/
def reply {σ : Type} (B : StorageBackend σ) (config : RateLimitConfig) (now : ℕ) (s : σ)
    (c : Call) : Except RateLimitError Reply :=
  (serve B config now s c).map (·.1)

/-- The store after a call. -/
def after {σ : Type} (B : StorageBackend σ) (config : RateLimitConfig) (now : ℕ) (s : σ)
    (c : Call) : σ :=
  match serve B config now s c with
  | .ok (_, s) => s
  | .error _ => s

end Backbone.RateLimit
