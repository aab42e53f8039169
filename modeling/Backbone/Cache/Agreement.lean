import Backbone.Cache.Calls
import Backbone.Lib.Run

/-!
# Where the two caches agree

Key by key the two caches hold the same text until the same time, and a call is answered from what
is held. `MemoryCache` drops what is expired at some calls only, keeps it for the others, and reads
an entry until the very instant of its expiry; a batch is read and written differently.

Reference: `backbone-cache/src/memory.rs` and `redis.rs`.
-/

namespace Backbone.Cache

open Authorization (nanosPerSecond cacheExpiry)
open Memory (Entries CacheEntry cleanupExpired)
open Machine

variable {β τ : Type} {c : RedisCache} {edge : Bool}

/-! ## What is held -/

/-- The text of an entry and when it expires, in nanoseconds. -/
def RedisEntry.content (e : RedisEntry β) : β × Option ℤ :=
  (e.value, e.expireAt.map (· * nanosPerSecond))

/-- What Redis holds under a key, the instant of the expiry included. -/
def Redis.held (now : ℤ) (db : Redis β) (key : String) : Option (β × Option ℤ) :=
  (db.find true now key).map RedisEntry.content

/-- Both caches hold the same under every key. -/
def Mirrors (c : RedisCache) (now : ℤ) (m : Entries β) (db : Redis β) : Prop :=
  ∀ key, Memory.held (now * nanosPerSecond) m key = db.held now (c.buildKey key)

/-- Redis still has what is held under a key: it is not the very instant of the expiry, or a key is
there at that instant. -/
def Settled (edge : Bool) (now : ℤ) (m : Entries β) (key : String) : Prop :=
  ∀ data, Memory.held (now * nanosPerSecond) m key = some (data, some (now * nanosPerSecond)) →
    edge = true

section Held

variable {c : RedisCache} {edge : Bool} {now : ℤ} {m : Entries β} {db : Redis β} {key : String}
  {e : Option (RedisEntry β)}

theorem RedisCache.buildKey_injective (c : RedisCache) : Function.Injective c.buildKey := by
  intro a b h
  unfold buildKey at h
  split at h
  · exact (String.append_right_inj _).mp h
  · exact h

theorem Memory.held_later {later : ℤ} (h : now ≤ later) :
    Memory.held later m key = (Memory.held now m key).filter fun v => v.2.all (later ≤ ·) := by
  unfold Memory.held
  cases m.lookup key with
  | none => rfl
  | some e =>
    cases ht : e.expiresAt with
    | none => simp [Option.filter_some, CacheEntry.isExpired, ht]
    | some t =>
      by_cases hlater : later ≤ t
      · simp [Option.filter_some, CacheEntry.isExpired, ht, hlater, le_trans h hlater]
      · by_cases hnow : now ≤ t <;> simp [Option.filter_some, CacheEntry.isExpired, ht, hlater, hnow]

theorem Redis.held_later {later : ℤ} (h : now ≤ later) :
    db.held later key = (db.held now key).filter fun v => v.2.all (later * nanosPerSecond ≤ ·) := by
  unfold Redis.held Redis.find
  cases db key with
  | none => rfl
  | some e =>
    cases ht : e.expireAt with
    | none => simp [Option.filter_some, alive, ht, RedisEntry.content]
    | some t =>
      have hscale : later * nanosPerSecond ≤ t * nanosPerSecond ↔ later ≤ t := by
        unfold nanosPerSecond
        omega
      have hlive : ∀ s, alive true s (some t) = decide (s ≤ t) := by
        intro s
        simp [alive, le_iff_lt_or_eq]
      by_cases hlater : later ≤ t
      · simp [Option.filter_some, hlive, ht, hlater, le_trans h hlater, RedisEntry.content, hscale]
      · by_cases hnow : now ≤ t <;>
          simp [Option.filter_some, hlive, ht, hlater, hnow, RedisEntry.content, hscale]

/-- Time passes in both caches alike. -/
theorem Mirrors.later {later : ℤ} (h : Mirrors c now m db) (hle : now ≤ later) :
    Mirrors c later m db := by
  intro key
  have hnanos : now * nanosPerSecond ≤ later * nanosPerSecond :=
    Int.mul_le_mul_of_nonneg_right hle (by decide)
  rw [Memory.held_later hnanos, h key, ← Redis.held_later hle]

theorem alive_edge {expiry : Option ℤ} :
    alive edge now expiry = (alive true now expiry && (edge || expiry ≠ some now)) := by
  cases expiry with
  | none => simp [alive]
  | some t =>
    rw [Bool.eq_iff_iff]
    cases edge <;> simp [alive]
    omega

theorem Redis.find_edge :
    db.find edge now key = (db.find true now key).filter fun e => edge || e.expireAt ≠ some now := by
  rw [Redis.find, Redis.find, Option.filter_filter]
  congr
  funext e
  rw [alive_edge, Bool.and_comm]

/-- `GET` of a key that is settled. -/
theorem Mirrors.find (h : Mirrors c now m db) (hs : Settled edge now m key) :
    (db.find edge now (c.buildKey key)).map RedisEntry.content =
      Memory.held (now * nanosPerSecond) m key := by
  rw [h key, Redis.held, Redis.find_edge]
  cases he : db.find true now (c.buildKey key) with
  | none => rfl
  | some e =>
    rw [Option.filter_some, if_pos]
    by_cases hnow : e.expireAt = some now
    · have hedge := hs e.value (by rw [h key, Redis.held, he]; simp [RedisEntry.content, hnow])
      simp [hedge]
    · simp [hnow]

/-! ### What a write leaves -/

theorem Memory.held_insert_self {e : CacheEntry β} (h : e.isExpired now = false) :
    Memory.held now (m.insert key e) key = some (e.data, e.expiresAt) := by
  rw [Memory.held, AList.lookup_insert, Option.filter_some, h]
  rfl

theorem Memory.held_insert_expired {e : CacheEntry β} (h : e.isExpired now = true) :
    Memory.held now (m.insert key e) key = none := by
  rw [Memory.held, AList.lookup_insert, Option.filter_some, h]
  rfl

theorem Memory.held_erase_self : Memory.held now (m.erase key) key = none := by
  rw [Memory.held, AList.lookup_erase]
  rfl

theorem Redis.held_update_of_ne {key' : String} (h : key' ≠ key) :
    Redis.held now (Function.update db key e) key' = db.held now key' := by
  rw [Redis.held, Redis.find, Function.update_of_ne h, ← Redis.find, ← Redis.held]

theorem Redis.held_update_none : Redis.held now (Function.update db key none) key = none := by
  rw [Redis.held, Redis.find, Function.update_self]
  rfl

theorem Redis.held_update_some {e : RedisEntry β} (h : alive true now e.expireAt = true) :
    Redis.held now (Function.update db key (some e)) key = some e.content := by
  rw [Redis.held, Redis.find, Function.update_self, Option.filter_some, if_pos h]
  rfl

/-- A write of one key in both caches. -/
theorem Mirrors.write {m' : Entries β} (h : Mirrors c now m db)
    (hother : ∀ key', key' ≠ key →
      Memory.held (now * nanosPerSecond) m' key' = Memory.held (now * nanosPerSecond) m key')
    (hself : Memory.held (now * nanosPerSecond) m' key =
      Redis.held now (Function.update db (c.buildKey key) e) (c.buildKey key)) :
    Mirrors c now m' (Function.update db (c.buildKey key) e) := by
  intro key'
  by_cases hkey : key' = key
  · rw [hkey, hself]
  · rw [hother key' hkey, h key', Redis.held_update_of_ne (c.buildKey_injective.ne hkey)]

/-- What a sweep drops was not held. -/
theorem Mirrors.cleanup (h : Mirrors c now m db) :
    Mirrors c now (cleanupExpired (now * nanosPerSecond) m) db := by
  intro key
  rw [Memory.held_cleanupExpired, h key]

end Held

/-! ## One key -/

/-- What the two calls leave and answer is the same. -/
structure Agree (c : RedisCache) (now : ℤ) (p : Reply τ × Entries β) (q : Reply τ × Redis β) :
    Prop where
  reply_eq : p.1 = q.1
  mirrors : Mirrors c now p.2 q.2

/-- A time to live of a second or more that neither cache refuses. -/
def Storable (now : ℤ) (ttl : UInt64) : Prop :=
  1 ≤ ttl.toNat ∧ ttl.toNat < 2 ^ 63 ∧ (cacheExpiry (now * nanosPerSecond) ttl).isSome

/-- `MemoryCache` has no expired entry under a key, and what it has is settled. -/
def Fresh (edge : Bool) (now : ℤ) (m : Entries β) (key : String) : Prop :=
  Settled edge now m key ∧
    ((m.lookup key).isSome → (Memory.held (now * nanosPerSecond) m key).isSome)

/-- What Redis makes of a value that is stored. -/
def stored (now : ℤ) (data : β) (ttl : Option UInt64) : RedisEntry β :=
  ⟨data, ttl.map fun t => now + t.toNat⟩

section OneKey

variable {c : RedisCache} {edge : Bool} {now : ℤ} {m : Entries β} {db : Redis β} {key : String}
  {instant : ℤ}

theorem cacheExpiry_eq {ttl : UInt64} {expiresAt : ℤ}
    (h : cacheExpiry (now * nanosPerSecond) ttl = some expiresAt) :
    expiresAt = (now + ttl.toBitVec.toInt) * nanosPerSecond ∧
      now + ttl.toBitVec.toInt ≤ Redis.maxExpire := by
  simp only [cacheExpiry, Option.ite_none_right_eq_some, Option.some.injEq] at h
  obtain ⟨⟨-, -, -, hmax⟩, rfl⟩ := h
  unfold Authorization.maxUtc nanosPerSecond at hmax
  unfold Redis.maxExpire nanosPerSecond
  omega

theorem Storable.stores {data : β} {ttl : UInt64} (h : Storable now ttl) :
    c.store now db key data (some ttl) =
      .ok (Function.update db (c.buildKey key) (some (stored now data (some ttl)))) := by
  obtain ⟨hpos, hlt, hsome⟩ := h
  obtain ⟨expiresAt, hexpiry⟩ := Option.isSome_iff_exists.mp hsome
  have hmax := (cacheExpiry_eq hexpiry).2
  rw [toInt_of_lt hlt] at hmax
  have hfits : ¬ (ttl.toNat = 0 ∨ Redis.maxExpire < now + ttl.toNat) := by omega
  rw [RedisCache.store, Redis.setEx, if_neg (Nat.not_le.mpr hlt), if_neg hfits]
  rfl

/-- Both caches store a value until the same time. -/
theorem Mirrors.store (h : Mirrors c now m db) (key : String) (data : β) {ttl : Option UInt64}
    (httl : ∀ t ∈ ttl, Storable now t) :
    ∃ entry, CacheEntry.new (now * nanosPerSecond) data ttl = some entry ∧
      c.store now db key data ttl =
        .ok (Function.update db (c.buildKey key) (some (stored now data ttl))) ∧
      Mirrors c now (m.insert key entry)
        (Function.update db (c.buildKey key) (some (stored now data ttl))) := by
  have hother : ∀ (entry : CacheEntry β) (key' : String), key' ≠ key →
      Memory.held (now * nanosPerSecond) (m.insert key entry) key' =
        Memory.held (now * nanosPerSecond) m key' := fun _ _ => Memory.held_insert_of_ne
  cases ttl with
  | none =>
    refine ⟨_, rfl, rfl, h.write (hother _) ?_⟩
    rw [Memory.held_insert_self rfl, Redis.held_update_some rfl]
    rfl
  | some ttl =>
    have hs := httl ttl rfl
    obtain ⟨expiresAt, hexpiry⟩ := Option.isSome_iff_exists.mp hs.2.2
    have heq := (cacheExpiry_eq hexpiry).1
    rw [toInt_of_lt hs.2.1] at heq
    have hlater : now ≤ now + ttl.toNat := Int.le_add_of_nonneg_right (Int.natCast_nonneg _)
    refine ⟨⟨data, now * nanosPerSecond, some expiresAt, 0, none⟩, ?_, hs.stores,
      h.write (hother _) ?_⟩
    · rw [CacheEntry.new, hexpiry]
      rfl
    · rw [Memory.held_insert_self, Redis.held_update_some, RedisEntry.content, stored, heq]
      · rfl
      · simpa [stored, alive, le_iff_lt_or_eq] using hlater
      · have hnot : ¬ (now + (ttl.toNat : ℤ)) * nanosPerSecond < now * nanosPerSecond := by
          unfold nanosPerSecond
          omega
        simpa [CacheEntry.isExpired, heq] using hnot

theorem Mirrors.set (h : Mirrors c now m db) {value : Text β} {ttl : Option UInt64}
    (httl : ∀ data, value = .ok data → ∀ t ∈ ttl, Storable now t) :
    Agree c now (Memory.call now m (.set key value ttl) : Reply τ × Entries β)
      (c.call edge now db (.set key value ttl)) := by
  cases value with
  | error e => exact ⟨rfl, h.cleanup⟩
  | ok data =>
    obtain ⟨entry, hnew, hstore, hmirrors⟩ :=
      h.cleanup.store key data (httl data rfl)
    simp only [Memory.call, Memory.set, RedisCache.call, RedisCache.set, hnew, hstore]
    exact ⟨rfl, hmirrors⟩

/-- What a `get` makes of what is held. -/
def read (decode : Decode β τ) : Option (β × Option ℤ) → Except CacheError (Option τ)
  | none => .ok none
  | some v =>
    match decode v.1 with
    | .ok v => .ok (some v)
    | .error e => .error (.deserialization e)

/-- `MemoryCache::get` answers from what is held, and changes nothing of it. -/
theorem Memory.get_eq {decode : Decode β τ} :
    (Memory.get instant m key decode).1 = read decode (Memory.held instant m key) ∧
      ∀ key', Memory.held instant (Memory.get instant m key decode).2 key' =
        Memory.held instant m key' := by
  have hlookup : (cleanupExpired instant m).lookup key =
      (m.lookup key).filter fun e => !e.isExpired instant := Memory.lookup_cleanupExpired
  unfold Memory.get
  cases he : m.lookup key with
  | none =>
    rw [he, Option.filter_none] at hlookup
    simp [hlookup, Memory.held, he, Memory.lookup_cleanupExpired, Option.filter_filter, read]
  | some e =>
    rw [he, Option.filter_some] at hlookup
    by_cases hexpired : e.isExpired instant = true
    · simp [hexpired] at hlookup
      simp [hlookup, Memory.held, he, hexpired, Memory.lookup_cleanupExpired,
        Option.filter_filter, Option.filter_some, read]
    · have hheld : Memory.held instant m key = some (e.data, e.expiresAt) := by
        simp [Memory.held, he, hexpired, Option.filter_some]
      rw [if_pos (by simpa using hexpired)] at hlookup
      simp only [hlookup, hexpired, hheld, read, Bool.false_eq_true, ↓reduceIte]
      cases decode e.data with
      | error => exact ⟨rfl, fun _ => Memory.held_cleanupExpired⟩
      | ok v =>
        refine ⟨rfl, fun key' => ?_⟩
        exact (Memory.held_insert_of_same (e := e.markAccessed instant) hlookup rfl rfl key').trans
          Memory.held_cleanupExpired

section

variable (h : Mirrors c now m db) {decode : Decode β τ}
include h

theorem Memory.mirrors_get :
    Mirrors c now (Memory.get (now * nanosPerSecond) m key decode).2 db := by
  intro key'
  rw [Memory.get_eq.2, h key']

theorem Mirrors.get (hs : Settled edge now m key) :
    Agree c now (Memory.call now m (.get key decode)) (c.call edge now db (.get key decode)) := by
  refine ⟨?_, Memory.mirrors_get h⟩
  simp only [Memory.call, RedisCache.call, RedisCache.get, Memory.get_eq.1, ← h.find hs]
  cases db.find edge now (c.buildKey key) with
  | none => rfl
  | some e =>
    simp only [Option.map_some, read, RedisEntry.content]
    cases decode e.value <;> rfl

theorem Mirrors.exists (hs : Settled edge now m key) :
    Agree c now (Memory.call now m (.exists key) : Reply τ × Entries β)
      (c.call edge now db (.exists key)) := by
  refine ⟨?_, h.cleanup⟩
  have hheld : (Memory.held (now * nanosPerSecond) m key).isSome =
      ((cleanupExpired (now * nanosPerSecond) m).lookup key).any
        fun e => !e.isExpired (now * nanosPerSecond) := by
    rw [← Memory.held_cleanupExpired, Memory.held, Option.isSome_map, Option.isSome_filter]
  simp only [Memory.call, RedisCache.call, Memory.contains, ← hheld, ← h.find hs, Option.isSome_map]

/-- Whether a key is there, where `MemoryCache` has no expired entry. -/
theorem Mirrors.isSome_find (hf : Fresh edge now m key) :
    (db.find edge now (c.buildKey key)).isSome = (m.lookup key).isSome := by
  have hheld := congrArg Option.isSome (h.find hf.1)
  rw [Option.isSome_map] at hheld
  rw [hheld, Bool.eq_iff_iff]
  refine ⟨fun hsome => ?_, hf.2⟩
  simp only [Memory.held, Option.isSome_map, Option.isSome_filter] at hsome
  exact Option.isSome_of_any hsome

theorem Mirrors.erase : Mirrors c now (m.erase key) (Function.update db (c.buildKey key) none) :=
  h.write (fun _ => Memory.held_erase_of_ne)
    (by rw [Memory.held_erase_self, Redis.held_update_none])

theorem Mirrors.delete (hf : Fresh edge now m key) :
    Agree c now (Memory.call now m (.delete key) : Reply τ × Entries β)
      (c.call edge now db (.delete key)) := by
  simp only [Memory.call, Memory.delete, RedisCache.call, RedisCache.delete, Redis.del,
    List.cons_ne_nil, ↓reduceIte, Redis.delAll, h.isSome_find hf]
  refine ⟨?_, h.erase⟩
  cases (m.lookup key).isSome <;> rfl

end

theorem toInt_ne_zero {ttl : UInt64} (h : 1 ≤ ttl.toNat) : ttl.toBitVec.toInt ≠ 0 := by
  intro hzero
  have hbits : ttl.toBitVec = 0#64 := BitVec.eq_of_toInt_eq hzero
  have hnat : ttl.toNat = 0 := congrArg BitVec.toNat hbits
  omega

/-- Seconds from 2^63 on are negative, for both caches, and end a key at once. -/
theorem Mirrors.expire (h : Mirrors c now m db) {ttl : UInt64} (hf : Fresh edge now m key)
    (hpos : 1 ≤ ttl.toNat)
    (hin : (m.lookup key).isSome → (cacheExpiry (now * nanosPerSecond) ttl).isSome) :
    Agree c now (Memory.call now m (.expire key ttl) : Reply τ × Entries β)
      (c.call edge now db (.expire key ttl)) := by
  have hfind := h.find hf.1
  have hsome := h.isSome_find hf
  simp only [Memory.call, Memory.expire, RedisCache.call, RedisCache.expire, Redis.expire]
  cases he : m.lookup key with
  | none =>
    rw [he, Option.isSome_none, Option.isSome_eq_false_iff, Option.isNone_iff_eq_none] at hsome
    rw [hsome]
    exact ⟨rfl, h⟩
  | some e =>
    obtain ⟨expiresAt, hexpiry⟩ := Option.isSome_iff_exists.mp (hin (by rw [he]; rfl))
    obtain ⟨hat, hmax⟩ := cacheExpiry_eq hexpiry
    rw [he, Option.isSome_some, Option.isSome_iff_exists] at hsome
    obtain ⟨e', he'⟩ := hsome
    have hvalue : e'.value = e.data := by
      rw [he', Option.map_some, Memory.held, he] at hfind
      obtain ⟨e'', hlive, hcontent⟩ := Option.map_eq_some_iff.mp hfind.symm
      rw [Option.some.inj (Option.filter_eq_some_iff.mp hlive).1]
      exact (congrArg Prod.fst hcontent).symm
    have hne := toInt_ne_zero hpos
    have hother : ∀ key', key' ≠ key →
        Memory.held (now * nanosPerSecond)
            (m.insert key { e with expiresAt := some expiresAt }) key' =
          Memory.held (now * nanosPerSecond) m key' := fun _ => Memory.held_insert_of_ne
    simp only [hexpiry, he', if_neg (Int.not_lt.mpr hmax)]
    by_cases hover : ttl.toBitVec.toInt ≤ 0
    · rw [if_pos hover]
      refine ⟨rfl, h.write hother ?_⟩
      have hexpired : expiresAt < now * nanosPerSecond := by
        rw [hat]
        unfold nanosPerSecond
        omega
      rw [Memory.held_insert_expired (by simpa [CacheEntry.isExpired] using hexpired),
        Redis.held_update_none]
    · rw [if_neg hover]
      refine ⟨rfl, h.write hother ?_⟩
      have hlive : ¬ expiresAt < now * nanosPerSecond := by
        rw [hat]
        unfold nanosPerSecond
        omega
      rw [Memory.held_insert_self (by simpa [CacheEntry.isExpired] using hlive),
        Redis.held_update_some, RedisEntry.content, hvalue, hat]
      · rfl
      · simp [alive]
        omega

/-- `TTL` of a key that expires: at the instant of the expiry it may be gone. -/
theorem Redis.ttl_of_expireAt {e : RedisEntry β} {t : ℤ} (he : db.find true now key = some e)
    (ht : e.expireAt = some t) :
    db.ttl edge now key = t - now ∨ db.ttl edge now key = -2 ∧ t = now := by
  rw [Redis.ttl, Redis.find_edge, he, Option.filter_some]
  by_cases hnow : t = now
  · cases edge <;> simp [ht, hnow]
  · simp [ht, hnow]

theorem Memory.ttl_eq {v : β × Option ℤ} (h : Memory.held instant m key = some v) :
    Memory.ttl instant m key =
      (v.2.map fun t => ((t - instant).tdiv nanosPerSecond).toNat, cleanupExpired instant m) := by
  have hexpires : ((cleanupExpired instant m).lookup key).bind (·.expiresAt) = v.2 := by
    rw [← Memory.held_cleanupExpired] at h
    obtain ⟨e, he, rfl⟩ := Option.map_eq_some_iff.mp h
    rw [(Option.filter_eq_some_iff.mp he).1]
    rfl
  simp only [Memory.ttl, hexpires]
  cases v.2 with
  | none => rfl
  | some t =>
    by_cases hpos : 0 < (t - instant).tdiv nanosPerSecond
    · simp [hpos]
    · simp [hpos, Int.toNat_of_nonpos (Int.not_lt.mp hpos)]

/-- At the instant of the expiry both caches answer zero, one because it is the time that is left. -/
theorem Mirrors.ttl (h : Mirrors c now m db)
    (hheld : (Memory.held (now * nanosPerSecond) m key).isSome) :
    Agree c now (Memory.call now m (.ttl key) : Reply τ × Entries β)
      (c.call edge now db (.ttl key)) := by
  obtain ⟨v, hv⟩ := Option.isSome_iff_exists.mp hheld
  obtain ⟨e, he, rfl⟩ := Option.map_eq_some_iff.mp ((h key).symm.trans hv)
  have hlive := (Option.filter_eq_some_iff.mp he).2
  simp only [Memory.call, Memory.ttl_eq hv]
  refine ⟨?_, h.cleanup⟩
  simp only [RedisCache.call, RedisCache.ttl, RedisEntry.content]
  cases ht : e.expireAt with
  | none =>
    have hredis : db.ttl edge now (c.buildKey key) = -1 := by
      rw [Redis.ttl, Redis.find_edge, he, Option.filter_some]
      simp [ht]
    simp [hredis]
  | some t =>
    have hdiv : (t * nanosPerSecond - now * nanosPerSecond).tdiv nanosPerSecond = t - now := by
      rw [← Int.sub_mul]
      exact Int.mul_tdiv_cancel _ (by decide)
    have hle : now ≤ t := by
      simp [ht, alive] at hlive
      omega
    rw [Option.map_some, Option.map_some, hdiv]
    have hredis : db.ttl edge now (c.buildKey key) = t - now ∨
        db.ttl edge now (c.buildKey key) = -2 ∧ t = now := Redis.ttl_of_expireAt he ht
    obtain hredis | ⟨hredis, rfl⟩ := hredis
    · rw [hredis, if_neg (by omega), if_neg (by omega), if_pos (by omega)]
    · simp [hredis]

end OneKey

/-! ## Batches -/

/-- The text under a key is read as the type that is asked for. -/
def Decodes (now : ℤ) (m : Entries β) (decode : Decode β τ) (key : String) : Prop :=
  ∀ v, Memory.held (now * nanosPerSecond) m key = some v → (decode v.1).toOption.isSome

/-- A value that `serde_json` writes, as it is given to `mset`. -/
def given (e : String × β × Option UInt64) : String × Text β × Option UInt64 :=
  (e.1, .ok e.2.1, e.2.2)

/-- A key that a batch leaves without a time to live has none anywhere in the batch. -/
def Unmixed (batch : List (String × β × Option UInt64)) : Prop :=
  ∀ key, ∀ e ∈ (batch.filter (·.1 = key)).getLast?, e.2.2.isSome = false →
    ∀ e' ∈ batch, e'.1 = key → e'.2.2.isSome = false

/-- A list of which one part is moved to its end has the same last item, if that is of the part or the
part is empty. -/
theorem getLast?_regroup {α : Type} (p : α → Bool) {l : List α}
    (h : ∀ x ∈ l.getLast?, p x = false → ∀ y ∈ l, p y = false) :
    (l.filter (fun x => !p x) ++ l.filter p).getLast? = l.getLast? := by
  obtain rfl | ⟨l, x, rfl⟩ := List.eq_nil_or_concat l
  · rfl
  · rw [List.concat_eq_append] at h ⊢
    rw [List.getLast?_concat] at h ⊢
    cases hx : p x with
    | true => simp [hx]
    | false =>
      have hnone : (l ++ [x]).filter p = [] := by
        rw [List.filter_eq_nil_iff]
        intro y hy
        simp [h x rfl hx y hy]
      rw [hnone, List.append_nil]
      simp [hx]

section Batches

variable {c : RedisCache} {edge : Bool} {now : ℤ} {m : Entries β} {db : Redis β} {key : String}
  {keys : List String} {batch : List (String × β × Option UInt64)} {decode : Decode β τ}

theorem read_eq_ok {v : Option (β × Option ℤ)} (h : ∀ w, v = some w → (decode w.1).toOption.isSome) :
    read decode v = .ok (v.bind fun w => (decode w.1).toOption) := by
  cases v with
  | none => rfl
  | some w =>
    have hw := h w rfl
    rw [read, Option.bind_some]
    cases hdecode : decode w.1 with
    | error e => simp [hdecode, Except.toOption] at hw
    | ok v => rfl

theorem Memory.mget_eq (h : ∀ key ∈ keys, Decodes now m decode key) :
    (Memory.mget (now * nanosPerSecond) decode keys m).1 =
        .ok (keys.map fun key => (key,
          (Memory.held (now * nanosPerSecond) m key).bind fun v => (decode v.1).toOption)) ∧
      ∀ key', Memory.held (now * nanosPerSecond)
          (Memory.mget (now * nanosPerSecond) decode keys m).2 key' =
        Memory.held (now * nanosPerSecond) m key' := by
  induction keys generalizing m with
  | nil => exact ⟨rfl, fun _ => rfl⟩
  | cons key keys ih =>
    have hget := @Memory.get_eq β τ m key (now * nanosPerSecond) decode
    rw [read_eq_ok (h key List.mem_cons_self)] at hget
    obtain ⟨m', hm'⟩ : ∃ m', Memory.get (now * nanosPerSecond) m key decode =
        (.ok ((Memory.held (now * nanosPerSecond) m key).bind fun v => (decode v.1).toOption), m') :=
      ⟨_, Prod.ext hget.1 rfl⟩
    have hleaves := hget.2
    rw [hm'] at hleaves
    have hrest := ih (m := m') fun key' hkey' v hv =>
      h key' (List.mem_cons_of_mem _ hkey') v (by rw [← hleaves, hv])
    simp only [hleaves] at hrest
    obtain ⟨m'', hm''⟩ : ∃ m'', Memory.mget (now * nanosPerSecond) decode keys m' =
        (.ok (keys.map fun key => (key,
          (Memory.held (now * nanosPerSecond) m key).bind fun v => (decode v.1).toOption)), m'') :=
      ⟨_, Prod.ext hrest.1 rfl⟩
    have hkept := hrest.2
    rw [hm''] at hkept
    simp only [Memory.mget, hm', hm'', List.map_cons]
    exact ⟨trivial, hkept⟩

theorem Mirrors.mget (h : Mirrors c now m db) (hne : keys ≠ [])
    (hs : ∀ key ∈ keys, Settled edge now m key) (hd : ∀ key ∈ keys, Decodes now m decode key) :
    Agree c now (Memory.call now m (.mget keys decode)) (c.call edge now db (.mget keys decode)) := by
  obtain ⟨hanswer, hleaves⟩ := Memory.mget_eq hd
  refine ⟨?_, fun key' => (hleaves key').trans (h key')⟩
  have hmap : keys.map c.buildKey ≠ [] := by simpa using hne
  simp only [Memory.call, hanswer, RedisCache.call, RedisCache.mget, Redis.mget, if_neg hmap,
    List.map_map, Reply.values.injEq]
  rw [← List.map_prod_left_eq_zip, List.map_map]
  refine List.map_congr_left fun key hkey => ?_
  rw [← h.find (hs key hkey)]
  simp only [Function.comp_apply]
  cases db.find edge now (c.buildKey key) <;> rfl

/-- What a batch leaves in Redis when it is written in its order. -/
def RedisCache.written (c : RedisCache) (now : ℤ) (batch : List (String × β × Option UInt64))
    (db : Redis β) : Redis β :=
  batch.foldl (fun db e => Function.update db (c.buildKey e.1) (some (stored now e.2.1 e.2.2))) db

theorem RedisCache.written_apply :
    c.written now batch db (c.buildKey key) =
      (((batch.filter (·.1 = key)).getLast?.map fun e => stored now e.2.1 e.2.2).or
        (db (c.buildKey key))) := by
  induction batch using List.reverseRecOn with
  | nil => rfl
  | append_singleton batch e ih =>
    rw [written, List.foldl_append, List.foldl_cons, List.foldl_nil, ← written, List.filter_append]
    by_cases hkey : e.1 = key
    · subst hkey
      simp
    · rw [Function.update_of_ne (c.buildKey_injective.ne (Ne.symm hkey)), ih]
      simp [hkey]

theorem storeAll_eq (h : ∀ e ∈ batch, ∀ t ∈ e.2.2, Storable now t) :
    (c.storeAll now batch db : Reply τ × Redis β) = (.done, c.written now batch db) := by
  induction batch generalizing db with
  | nil => rfl
  | cons e batch ih =>
    obtain ⟨key, data, ttl⟩ := e
    have hstore : c.store now db key data ttl =
        .ok (Function.update db (c.buildKey key) (some (stored now data ttl))) := by
      cases ttl with
      | none => rfl
      | some t => exact (h _ List.mem_cons_self t rfl).stores
    simp only [RedisCache.storeAll, hstore]
    exact ih fun e he => h e (List.mem_cons_of_mem _ he)

theorem Mirrors.written (h : Mirrors c now m db) (hs : ∀ e ∈ batch, ∀ t ∈ e.2.2, Storable now t) :
    Agree c now (Memory.mset (now * nanosPerSecond) (batch.map given) m : Reply τ × Entries β)
      (.done, c.written now batch db) := by
  induction batch generalizing m db with
  | nil => exact ⟨rfl, h⟩
  | cons e batch ih =>
    obtain ⟨key, data, ttl⟩ := e
    obtain ⟨entry, hnew, -, hmirrors⟩ :=
      h.cleanup.store key data (hs _ List.mem_cons_self)
    simp only [List.map_cons, given, Memory.mset, Memory.set, hnew]
    exact ih hmirrors fun e he => hs e (List.mem_cons_of_mem _ he)

theorem serializeAll_given : RedisCache.serializeAll (batch.map given) = .ok batch := by
  induction batch with
  | nil => rfl
  | cons e batch ih =>
    simp only [List.map_cons, given, RedisCache.serializeAll] at ih ⊢
    rw [ih]
    rfl

/-- What is written without a time to live first is as if it were written in its turn. -/
theorem Unmixed.written_regroup (h : Unmixed batch) :
    c.written now (batch.filter (·.2.2.isNone) ++ batch.filter (·.2.2.isSome)) db
        (c.buildKey key) =
      c.written now batch db (c.buildKey key) := by
  have hlast := getLast?_regroup (fun e : String × β × Option UInt64 => e.2.2.isSome)
    (l := batch.filter (·.1 = key)) fun e he hnone e' he' => by
      obtain ⟨hmem, hkey⟩ := List.mem_filter.mp he'
      exact h key e he hnone e' hmem (of_decide_eq_true hkey)
  simp only [Option.not_isSome, List.filter_filter] at hlast
  rw [RedisCache.written_apply, RedisCache.written_apply, List.filter_append, List.filter_filter,
    List.filter_filter]
  simp only [Bool.and_comm] at hlast ⊢
  rw [hlast]

theorem Mirrors.mset_given (h : Mirrors c now m db) (hs : ∀ e ∈ batch, ∀ t ∈ e.2.2, Storable now t)
    (hu : Unmixed batch) :
    Agree c now (Memory.call now m (.mset (batch.map given)) : Reply τ × Entries β)
      (c.call edge now db (.mset (batch.map given))) := by
  have hwritten : Agree c now
      (Memory.mset (now * nanosPerSecond) (batch.map given) m : Reply τ × Entries β)
      (.done, c.written now batch db) := h.written hs
  obtain ⟨hreply, hmirrors⟩ := hwritten
  obtain rfl | hne := eq_or_ne batch []
  · exact ⟨rfl, h⟩
  · have hgiven : batch.map given ≠ [] := by simpa using hne
    have hsplit : ∀ e ∈ batch.filter (·.2.2.isNone) ++ batch.filter (·.2.2.isSome),
        ∀ t ∈ e.2.2, Storable now t := by
      intro e he
      obtain he | he := List.mem_append.mp he
      · exact hs e (List.mem_of_mem_filter he)
      · exact hs e (List.mem_of_mem_filter he)
    simp only [RedisCache.call, RedisCache.mset, if_neg hgiven, serializeAll_given]
    rw [storeAll_eq hsplit]
    refine ⟨hreply, fun key => (hmirrors key).trans ?_⟩
    have hsame : c.written now
        (batch.filter (·.2.2.isNone) ++ batch.filter (·.2.2.isSome)) db (c.buildKey key) =
          c.written now batch db (c.buildKey key) := hu.written_regroup
    simp only [Redis.held, Redis.find, hsame]

theorem Fresh.erase {key' : String} (hf : Fresh edge now m key') (key : String) :
    Fresh edge now (m.erase key) key' := by
  by_cases hkey : key' = key
  · subst hkey
    exact ⟨fun data hdata => by simp [Memory.held_erase_self] at hdata,
      by simp [AList.lookup_erase]⟩
  · rw [Fresh, Settled, Memory.held_erase_of_ne hkey, AList.lookup_erase_ne hkey]
    exact hf

theorem Mirrors.delAll (h : Mirrors c now m db) (hf : ∀ key ∈ keys, Fresh edge now m key) :
    (Memory.mdelete keys m).1 = (Redis.delAll edge now (keys.map c.buildKey) db).1 ∧
      Mirrors c now (Memory.mdelete keys m).2 (Redis.delAll edge now (keys.map c.buildKey) db).2 := by
  induction keys generalizing m db with
  | nil => exact ⟨rfl, h⟩
  | cons key keys ih =>
    obtain ⟨hcount, hmirrors⟩ := ih h.erase fun key' hkey' =>
      (hf key' (List.mem_cons_of_mem _ hkey')).erase key
    simp only [Memory.mdelete, Memory.delete, List.map_cons, Redis.delAll,
      h.isSome_find (hf key List.mem_cons_self), hcount]
    exact ⟨trivial, hmirrors⟩

theorem Mirrors.mdelete (h : Mirrors c now m db) (hf : ∀ key ∈ keys, Fresh edge now m key) :
    Agree c now (Memory.call now m (.mdelete keys) : Reply τ × Entries β)
      (c.call edge now db (.mdelete keys)) := by
  obtain rfl | hne := eq_or_ne keys []
  · exact ⟨rfl, h⟩
  · obtain ⟨hcount, hmirrors⟩ := h.delAll hf
    have hmap : keys.map c.buildKey ≠ [] := by simpa using hne
    simp only [Memory.call, hcount, RedisCache.call, RedisCache.mdelete, if_neg hne, Redis.del,
      if_neg hmap]
    exact ⟨rfl, hmirrors⟩

end Batches

/-! ## Runs -/

/-- Both caches and the second of the clock. -/
structure Caches (β : Type) where
  second : ℤ
  memory : Entries β
  redis : Redis β

/-- Both caches are empty. -/
def Caches.new (start : ℤ) : Caches β := ⟨start, ∅, fun _ => none⟩

/-- The client waits some seconds and makes a call, which both caches serve. -/
def Caches.step (c : RedisCache) (edge : Bool) (s : Caches β) (a : ℕ × Request β τ) : Caches β :=
  ⟨s.second + a.1, (Memory.call (s.second + a.1) s.memory a.2).2,
    (c.call edge (s.second + a.1) s.redis a.2).2⟩

def Caches.SameReply (c : RedisCache) (edge : Bool) (s : Caches β) (a : ℕ × Request β τ) : Prop :=
  (Memory.call (s.second + a.1) s.memory a.2).1 = (c.call edge (s.second + a.1) s.redis a.2).1

/-- A call keeps out of what the two caches do differently. -/
def Regular (edge : Bool) (now : ℤ) (m : Entries β) : Request β τ → Prop
  | .set _ value ttl => ∀ data, value = .ok data → ∀ t ∈ ttl, Storable now t
  | .get key _ => Settled edge now m key
  | .delete key => Fresh edge now m key
  | .exists key => Settled edge now m key
  | .expire key ttl => Fresh edge now m key ∧ 1 ≤ ttl.toNat ∧
      ((m.lookup key).isSome → (cacheExpiry (now * nanosPerSecond) ttl).isSome)
  | .ttl key => (Memory.held (now * nanosPerSecond) m key).isSome
  | .mget keys decode => keys ≠ [] ∧ (∀ key ∈ keys, Settled edge now m key) ∧
      ∀ key ∈ keys, Decodes now m decode key
  | .mset entries =>
      (∃ batch, entries = batch.map given ∧ (∀ e ∈ batch, ∀ t ∈ e.2.2, Storable now t) ∧
        Unmixed batch) ∨
      ∃ key message ttl rest, entries = (key, .error message, ttl) :: rest
  | .mdelete keys => ∀ key ∈ keys, Fresh edge now m key

theorem Mirrors.call {now : ℤ} {m : Entries β} {db : Redis β}
    (h : Mirrors c now m db) {request : Request β τ} (hr : Regular edge now m request) :
    Agree c now (Memory.call now m request) (c.call edge now db request) := by
  cases request with
  | set key value ttl => exact h.set hr
  | get key decode => exact h.get hr
  | delete key => exact h.delete hr
  | «exists» key => exact h.exists hr
  | expire key ttl => exact h.expire hr.1 hr.2.1 hr.2.2
  | ttl key => exact h.ttl hr
  | mget keys decode => exact h.mget hr.1 hr.2.1 hr.2.2
  | mset entries =>
    obtain ⟨batch, rfl, hs, hu⟩ | ⟨key, message, ttl, rest, rfl⟩ := hr
    · exact h.mset_given hs hu
    · exact ⟨rfl, h.cleanup⟩
  | mdelete keys => exact h.mdelete hr

/-- Along every run of regular calls both caches answer alike. -/
theorem same_replies (c : RedisCache) (edge : Bool) (start : ℤ) (calls : List (ℕ × Request β τ))
    (h : Along (Caches.step c edge) (fun s a => Regular edge (s.second + a.1) s.memory a.2)
      (Caches.new start) calls) :
    Along (Caches.step c edge) (Caches.SameReply c edge) (Caches.new start) calls := by
  have hstep : ∀ (s : Caches β) (a : ℕ × Request β τ), Mirrors c s.second s.memory s.redis →
      Regular edge (s.second + a.1) s.memory a.2 →
      Agree c (s.second + a.1) (Memory.call (s.second + a.1) s.memory a.2)
        (c.call edge (s.second + a.1) s.redis a.2) := by
    intro s a hs ha
    exact (hs.later (Int.le_add_of_nonneg_right (Int.natCast_nonneg _))).call ha
  refine along_of_invariant _ (I := fun s => Mirrors c s.second s.memory s.redis)
    (fun s a hs ha => (hstep s a hs ha).mirrors) (fun s a hs ha => (hstep s a hs ha).reply_eq)
    ?_ h
  intro key
  rfl

/-- A key with a time to live is written, read, asked for its time, and deleted with others. -/
theorem same_replies_session :
    Along (Caches.step ⟨some "app"⟩ true) (Caches.SameReply ⟨some "app"⟩ true) (Caches.new 0)
      [(0, .set "a" (.ok "1") (some 5)), (3, .get "a" .ok), (0, .ttl "a"),
        (1, .mset [("b", .ok "2", none), ("c", .ok "3", some 2)]), (0, .mdelete ["a", "b", "a"]),
        (0, .exists "a")] := by
  apply same_replies ⟨some "app"⟩ true 0 _
  refine ⟨?_, fun _ _ => rfl, ?_, .inl ⟨[("b", "2", none), ("c", "3", some 2)], rfl, ?_, ?_⟩,
    fun key hkey => ⟨fun _ _ => rfl, ?_⟩, fun _ _ => rfl, trivial⟩
  · intro data _ t ht
    cases ht
    exact ⟨by decide, by decide, by decide⟩
  · show Option.isSome _ = true
    decide
  · intro e he t ht
    have ht : t = 2 := by
      obtain rfl | rfl : e = ("b", "2", none) ∨ e = ("c", "3", some 2) := by simpa using he
      · cases ht
      · exact (Option.some.inj ht).symm
    subst ht
    exact ⟨by decide, by decide, by decide⟩
  · rintro key e he hnone e' he' rfl
    obtain rfl | rfl : e' = ("b", "2", none) ∨ e' = ("c", "3", some 2) := by simpa using he'
    · rfl
    · have hlast : e = ("c", "3", some 2) := by simpa using he.symm
      subst hlast
      cases hnone
  · have hkey : key = "a" ∨ key = "b" := by
      simp at hkey
      tauto
    obtain rfl | rfl := hkey
    · decide
    · decide

/-! ### A key that is not there -/

/-- The times to live of a call. -/
def Request.ttls : Request β τ → List UInt64
  | .set _ _ time => time.toList
  | .expire _ time => [time]
  | .mset entries => entries.filterMap (·.2.2)
  | _ => []

/-- Asked for the time of a key that neither holds, one answers nothing and the other zero. -/
theorem not_same_ttl {s : Caches β} {wait : ℕ} {key : String}
    (h : Mirrors c (s.second + wait) s.memory s.redis)
    (hnone : Memory.held ((s.second + wait) * nanosPerSecond) s.memory key = none) :
    ¬ Caches.SameReply c edge s (wait, (.ttl key : Request β τ)) := by
  have hfind : s.redis.find true (s.second + wait) (c.buildKey key) = none :=
    Option.map_eq_none_iff.mp ((h key).symm.trans hnone)
  have hredis : s.redis.ttl edge (s.second + wait) (c.buildKey key) = -2 := by
    rw [Redis.ttl, Redis.find_edge, hfind, Option.filter_none]
  have hlookup : (cleanupExpired ((s.second + wait) * nanosPerSecond) s.memory).lookup key =
      none := by
    rw [Memory.lookup_cleanupExpired]
    exact Option.map_eq_none_iff.mp hnone
  simp [Caches.SameReply, Memory.call, Memory.ttl, hlookup, RedisCache.call, RedisCache.ttl, hredis]

theorem not_same_replies :
    ¬ ∀ (c : RedisCache) (edge : Bool) (start : ℤ) (calls : List (ℕ × Request String String)),
      (∀ a ∈ calls, ∀ ttl ∈ a.2.ttls, 1 ≤ ttl.toNat) →
      Along (Caches.step c edge) (Caches.SameReply c edge) (Caches.new start) calls := by
  intro h
  have hsame := (h ⟨none⟩ true 0 [(0, .ttl "a")] (by simp [Request.ttls])).1
  exact not_same_ttl (fun _ => rfl) rfl hsame

end Backbone.Cache
