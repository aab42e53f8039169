import Backbone.Cache.Memory

/-!
# The calls of the two caches

`MemoryCache` and `RedisCache` implement the trait `Cache`, each call written twice. The calls here
are those of one client, one after the other, at whole seconds of the clock.

Redis is its keys with their values and expiries. Whether a key is still there at the very instant it
expires is not documented, and a parameter. An error of the server is its text.

Reference: `backbone-cache/src/memory.rs` and `redis.rs`.
-/

namespace Backbone.Cache

open Authorization (nanosPerSecond cacheExpiry)
open Memory (Entries CacheEntry cleanupExpired)

variable {β τ : Type}

inductive CacheError where
  | redisOperation (message : String)
  | serialization (message : String)
  | deserialization (message : String)
deriving DecidableEq, Repr

/-- What a call answers. -/
inductive Reply (τ : Type) where
  | done
  | value (v : Option τ)
  | flag (b : Bool)
  | seconds (n : Option ℕ)
  | values (vs : List (String × Option τ))
  | count (n : ℕ)
  | error (e : CacheError)
  | panicked
deriving DecidableEq

/-- A value to be stored, as `serde_json` writes it or fails to. -/
abbrev Text (β : Type) := Except String β

/-- How `serde_json` reads the type that a call asks for. -/
abbrev Decode (β τ : Type) := β → Except String τ

/-- A call of the trait. -/
inductive Request (β τ : Type) where
  | set (key : String) (value : Text β) (ttl : Option UInt64)
  | get (key : String) (decode : Decode β τ)
  | delete (key : String)
  | exists (key : String)
  | expire (key : String) (ttl : UInt64)
  | ttl (key : String)
  | mget (keys : List String) (decode : Decode β τ)
  | mset (entries : List (String × Text β × Option UInt64))
  | mdelete (keys : List String)

/-! ## `MemoryCache` -/

namespace Memory

variable (now : ℤ) (m : Entries β)

/-- `set` without a size limit: `evict_if_needed` returns at once. -/
def set (key : String) (value : Text β) (ttl : Option UInt64) : Reply τ × Entries β :=
  let m := cleanupExpired now m
  match value with
  | .error e => (.error (.serialization e), m)
  | .ok data =>
    match CacheEntry.new now data ttl with
    | none => (.panicked, m)
    | some entry => (.done, m.insert key entry)

def get (key : String) (decode : Decode β τ) : Except CacheError (Option τ) × Entries β :=
  let m := cleanupExpired now m
  match m.lookup key with
  | none => (.ok none, m)
  | some entry =>
    if entry.isExpired now then (.ok none, m.erase key)
    else
      match decode entry.data with
      | .error e => (.error (.deserialization e), m)
      | .ok v => (.ok (some v), m.insert key (entry.markAccessed now))

def delete (key : String) : Bool × Entries β := ((m.lookup key).isSome, m.erase key)

def contains (key : String) : Bool × Entries β :=
  let m := cleanupExpired now m
  ((m.lookup key).any fun entry => !entry.isExpired now, m)

def expire (key : String) (ttl : UInt64) : Reply τ × Entries β :=
  match m.lookup key with
  | none => (.flag false, m)
  | some entry =>
    match cacheExpiry now ttl with
    | none => (.panicked, m)
    | some expiresAt => (.flag true, m.insert key { entry with expiresAt := some expiresAt })

/-- `ttl`; `num_seconds` cuts towards zero. -/
def ttl (key : String) : Option ℕ × Entries β :=
  let m := cleanupExpired now m
  match (m.lookup key).bind (·.expiresAt) with
  | none => (none, m)
  | some expiresAt =>
    let ttl := (expiresAt - now).tdiv nanosPerSecond
    (if 0 < ttl then some ttl.toNat else some 0, m)

/-- The loop of `mget`. -/
def mget (decode : Decode β τ) :
    List String → Entries β → Except CacheError (List (String × Option τ)) × Entries β
  | [], m => (.ok [], m)
  | key :: keys, m =>
    match get now m key decode with
    | (.error e, m) => (.error e, m)
    | (.ok v, m) =>
      match mget decode keys m with
      | (.error e, m) => (.error e, m)
      | (.ok vs, m) => (.ok ((key, v) :: vs), m)

/-- The loop of `mset`, which an error or a panic of `set` leaves. -/
def mset : List (String × Text β × Option UInt64) → Entries β → Reply τ × Entries β
  | [], m => (.done, m)
  | (key, value, ttl) :: entries, m =>
    match (set now m key value ttl : Reply τ × Entries β) with
    | (.done, m) => mset entries m
    | (reply, m) => (reply, m)

/-- The loop of `mdelete`. -/
def mdelete : List String → Entries β → ℕ × Entries β
  | [], m => (0, m)
  | key :: keys, m =>
    let (removed, m) := delete m key
    let (count, m) := mdelete keys m
    (if removed then count + 1 else count, m)

/-- A call at a second of the clock. -/
def call (second : ℤ) (m : Entries β) : Request β τ → Reply τ × Entries β
  | .set key value ttl => set (second * nanosPerSecond) m key value ttl
  | .get key decode =>
    let (r, m) := get (second * nanosPerSecond) m key decode
    (match r with
      | .ok v => .value v
      | .error e => .error e, m)
  | .delete key => let (b, m) := delete m key; (.flag b, m)
  | .exists key => let (b, m) := contains (second * nanosPerSecond) m key; (.flag b, m)
  | .expire key ttl => expire (second * nanosPerSecond) m key ttl
  | .ttl key => let (n, m) := Memory.ttl (second * nanosPerSecond) m key; (.seconds n, m)
  | .mget keys decode =>
    let (r, m) := mget (second * nanosPerSecond) decode keys m
    (match r with
      | .ok vs => .values vs
      | .error e => .error e, m)
  | .mset entries => mset (second * nanosPerSecond) entries m
  | .mdelete keys => let (n, m) := mdelete keys m; (.count n, m)

end Memory

/-! ## Redis -/

/-- A key of Redis: its value and the second at which it expires. -/
structure RedisEntry (β : Type) where
  value : β
  expireAt : Option ℤ
deriving DecidableEq, Repr

/-- Before the instant of expiry, or at it. -/
def alive (edge : Bool) (now : ℤ) (expiry : Option ℤ) : Bool :=
  expiry.all fun t => now < t || (edge && now = t)

abbrev Redis (β : Type) := String → Option (RedisEntry β)

namespace Redis

/-- The last second whose milliseconds are 64 signed bits. -/
def maxExpire : ℤ := 9223372036854775

variable (edge : Bool) (now : ℤ) (db : Redis β)

/-- `GET`: the entry under a key that has not expired. -/
def find (key : String) : Option (RedisEntry β) := (db key).filter fun e => alive edge now e.expireAt

/-- `SET`. -/
def set (key : String) (value : β) : Redis β := Function.update db key (some ⟨value, none⟩)

/-- `SETEX`. -/
def setEx (key : String) (value : β) (seconds : ℕ) : Except String (Redis β) :=
  if 2 ^ 63 ≤ seconds then .error "ERR value is not an integer or out of range"
  else if seconds = 0 ∨ maxExpire < now + seconds then
    .error "ERR invalid expire time in 'setex' command"
  else .ok (Function.update db key (some ⟨value, some (now + seconds)⟩))

/-- The keys of a `DEL`, one after the other: a key that is named twice is deleted once. -/
def delAll : List String → Redis β → ℕ × Redis β
  | [], db => (0, db)
  | key :: keys, db =>
    let (count, db') := delAll keys (Function.update db key none)
    (if (find edge now db key).isSome then count + 1 else count, db')

/-- `DEL`. -/
def del (keys : List String) : Except String (ℕ × Redis β) :=
  if keys = [] then .error "ERR wrong number of arguments for 'del' command"
  else .ok (delAll edge now keys db)

/-- `EXPIRE`: a time that is over deletes the key. -/
def expire (key : String) (seconds : ℤ) : Except String (Bool × Redis β) :=
  match find edge now db key with
  | none => .ok (false, db)
  | some e =>
    if maxExpire < now + seconds then .error "ERR invalid expire time in 'expire' command"
    else if seconds ≤ 0 then .ok (true, Function.update db key none)
    else .ok (true, Function.update db key (some { e with expireAt := some (now + seconds) }))

/-- `TTL`. -/
def ttl (key : String) : ℤ :=
  match find edge now db key with
  | none => -2
  | some e =>
    match e.expireAt with
    | none => -1
    | some t => t - now

/-- `MGET`. -/
def mget (keys : List String) : Except String (List (Option β)) :=
  if keys = [] then .error "ERR wrong number of arguments for 'mget' command"
  else .ok (keys.map fun key => (find edge now db key).map (·.value))

end Redis

/-! ## `RedisCache` -/

structure RedisCache where
  keyPrefix : Option String

namespace RedisCache

def buildKey (c : RedisCache) (key : String) : String :=
  match c.keyPrefix with
  | some keyPrefix => keyPrefix ++ ":" ++ key
  | none => key

variable (c : RedisCache) (edge : Bool) (now : ℤ) (db : Redis β)

/-- A store with a time to live or without. -/
def store (key : String) (data : β) : Option UInt64 → Except String (Redis β)
  | some ttl => db.setEx now (c.buildKey key) data ttl.toNat
  | none => .ok (db.set (c.buildKey key) data)

def set (key : String) (value : Text β) (ttl : Option UInt64) : Reply τ × Redis β :=
  match value with
  | .error e => (.error (.serialization e), db)
  | .ok data =>
    match c.store now db key data ttl with
    | .error e => (.error (.redisOperation e), db)
    | .ok db => (.done, db)

def get (key : String) (decode : Decode β τ) : Reply τ :=
  match db.find edge now (c.buildKey key) with
  | none => .value none
  | some e =>
    match decode e.value with
    | .ok v => .value (some v)
    | .error e => .error (.deserialization e)

def expire (key : String) (ttl : UInt64) : Reply τ × Redis β :=
  match db.expire edge now (c.buildKey key) ttl.toBitVec.toInt with
  | .error e => (.error (.redisOperation e), db)
  | .ok (b, db) => (.flag b, db)

def ttl (key : String) : Reply τ :=
  let ttl := db.ttl edge now (c.buildKey key)
  if ttl = -1 then .seconds none
  else if ttl = -2 then .seconds (some 0)
  else if 0 ≤ ttl then .seconds (some ttl.toNat)
  else .error (.redisOperation s!"Invalid TTL: {ttl}")

def mget (keys : List String) (decode : Decode β τ) : Reply τ :=
  match db.mget edge now (keys.map c.buildKey) with
  | .error e => .error (.redisOperation e)
  | .ok values => .values ((keys.zip values).map fun p =>
      (p.1, p.2.bind fun value => (decode value).toOption))

/-- `mset` serialises every value before it writes one. -/
def serializeAll : List (String × Text β × Option UInt64) →
    Except String (List (String × β × Option UInt64))
  | [] => .ok []
  | (key, value, ttl) :: entries => do
    let data ← value
    let rest ← serializeAll entries
    return (key, data, ttl) :: rest

/-- The writes of `mset` one after the other. -/
def storeAll : List (String × β × Option UInt64) → Redis β → Reply τ × Redis β
  | [], db => (.done, db)
  | (key, data, ttl) :: entries, db =>
    match c.store now db key data ttl with
    | .error e => (.error (.redisOperation e), db)
    | .ok db => storeAll entries db

/-- `mset`: what has no time to live first, in a pipeline of `SET`s, and then the rest. -/
def mset (entries : List (String × Text β × Option UInt64)) : Reply τ × Redis β :=
  if entries = [] then (.done, db)
  else match serializeAll entries with
  | .error e => (.error (.serialization e), db)
  | .ok entries =>
    c.storeAll now
      (entries.filter (fun e => e.2.2.isNone) ++ entries.filter fun e => e.2.2.isSome) db

def delete (key : String) : Reply τ × Redis β :=
  match db.del edge now [c.buildKey key] with
  | .error e => (.error (.redisOperation e), db)
  | .ok (count, db) => (.flag (decide (0 < count)), db)

def mdelete (keys : List String) : Reply τ × Redis β :=
  if keys = [] then (.count 0, db)
  else match db.del edge now (keys.map c.buildKey) with
    | .error e => (.error (.redisOperation e), db)
    | .ok (count, db) => (.count count, db)

/-- A call at a second of the clock. -/
def call : Request β τ → Reply τ × Redis β
  | .set key value ttl => c.set now db key value ttl
  | .get key decode => (c.get edge now db key decode, db)
  | .delete key => c.delete edge now db key
  | .exists key => (.flag (db.find edge now (c.buildKey key)).isSome, db)
  | .expire key ttl => c.expire edge now db key ttl
  | .ttl key => (c.ttl edge now db key, db)
  | .mget keys decode => (c.mget edge now db keys decode, db)
  | .mset entries => c.mset now db entries
  | .mdelete keys => c.mdelete edge now db keys

end RedisCache

end Backbone.Cache
