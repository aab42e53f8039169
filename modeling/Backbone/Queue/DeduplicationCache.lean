import Mathlib.Data.List.Sort
import Backbone.Authorization.Service
import Backbone.Lib.Cache
import Backbone.Lib.Except
import Backbone.Queue.Locks

/-!
# The cache of the deduplicator

`record_message` stores one entry under the key of the strategy, and `is_duplicate` looks up the
keys that a message could repeat. The two derive them differently: under `Both` an entry is stored
under the deduplication id alone, and the content hash that is looked up is under no key. A lookup
does not ask whether the entry has expired, and a full cache evicts its oldest entry also for a key
that it holds.

None of the lookups gets out: `is_duplicate` keeps its guard of `stats` while `is_key_duplicate`
awaits another one. What they find is told apart from that.

Reference: `backbone-queue/src/deduplication.rs`.
-/

namespace Backbone.Queue.DeduplicationCache

open Machine Cache

variable {π : Type}

/-- `DeduplicationConfig`, what the calls of the cache read of it. -/
structure CacheConfig where
  strategy : DeduplicationStrategy
  deduplicationWindowSeconds : UInt64
  maxCacheEntries : ℕ

/-- `DeduplicationEntry`; what no method reads is left out but for the content hash. -/
structure DeduplicationEntry where
  key : String
  contentHash : Option String
  createdAt : ℤ
  expiresAt : ℤ
deriving DecidableEq, Repr

/-- `MemoryDeduplicationCache`. -/
abbrev Entries := AList fun _ : String => DeduplicationEntry

/-- `entry.expires_at > now`. -/
def unexpired (now : ℤ) (entry : DeduplicationEntry) : Bool := now < entry.expiresAt

/-- Before another by `created_at`, and of one age in the order in which the map iterates. -/
def older (order : String → ℕ) (a b : (_ : String) × DeduplicationEntry) : Bool :=
  a.2.createdAt < b.2.createdAt || (a.2.createdAt = b.2.createdAt && order a.1 ≤ order b.1)

/-- The key of the oldest entry. -/
def oldestKey (order : String → ℕ) (entries : Entries) : Option String :=
  ((entries.entries.insertionSort fun a b => older order a b = true).head?).map (·.1)

/-- What `store_entry` leaves for the new entry. -/
def makeRoom (maxEntries : ℕ) (order : String → ℕ) (entries : Entries) (now : ℤ) : Entries :=
  let entries :=
    if maxEntries ≤ entries.entries.length then retain (unexpired now) entries else entries
  if maxEntries ≤ entries.entries.length then
    match oldestKey order entries with
    | some key => entries.erase key
    | none => entries
  else entries

/-- `store_entry`. -/
def storeEntry (maxEntries : ℕ) (order : String → ℕ) (entries : Entries) (entry : DeduplicationEntry)
    (now : ℤ) : Entries :=
  (makeRoom maxEntries order entries now).insert entry.key entry

/-- `Utc::now() + Duration::seconds(window as i64)`, or a panic. -/
def expiry (now : ℤ) (window : UInt64) : Option ℤ := Authorization.cacheExpiry now window

section Deduplicator

variable (generateContentHash : π → String) (cfg : CacheConfig)

/-- The entry that `record_message` stores, unless it panics. -/
def newEntry (m : DedupMessage π) (key : String) (now : ℤ) : Option DeduplicationEntry :=
  (expiry now cfg.deduplicationWindowSeconds).map fun expiresAt =>
    ⟨key, if cfg.strategy = .content ∨ cfg.strategy = .both then some (generateContentHash m.payload)
      else none, now, expiresAt⟩

/-- `record_message`; a panic is no answer. -/
def recordMessage (order : String → ℕ) (entries : Entries) (m : DedupMessage π) (now : ℤ) :
    Option (Except DedupError String) × Entries :=
  match getDeduplicationKey generateContentHash cfg.strategy m with
  | .error e => (some (.error e), entries)
  | .ok key =>
    match newEntry generateContentHash cfg m key now with
    | none => (none, entries)
    | some entry => (some (.ok key), storeEntry cfg.maxCacheEntries order entries entry now)

/-- `is_key_duplicate`: there is no answer when the caller holds a guard of `stats`, since the lock
is not given to it twice. -/
def isKeyDuplicate (guarded : Bool) (entries : Entries) (key : String) : Option Bool :=
  let cacheExists := (entries.lookup key).isSome
  if guarded then none else some cacheExists

/-- The body of `is_duplicate`, with or without the guard that it takes first. -/
def checkKeys (guarded : Bool) (entries : Entries) (m : DedupMessage π) : Option Bool :=
  match cfg.strategy with
  | .none => some false
  | .messageId =>
    match m.messageDeduplicationId with
    | some id => isKeyDuplicate guarded entries id
    | none => some false
  | .content => isKeyDuplicate guarded entries (generateContentHash m.payload)
  | .both => do
    let byId ← match m.messageDeduplicationId with
      | some id => isKeyDuplicate guarded entries id
      | none => some false
    let byContent ← isKeyDuplicate guarded entries (generateContentHash m.payload)
    return byId || byContent

/-- `is_duplicate`. -/
def isDuplicate (entries : Entries) (m : DedupMessage π) : Option Bool :=
  checkKeys generateContentHash cfg true entries m

end Deduplicator

/-- A call, with the reading of the clock it takes and the order in which the map iterates. -/
inductive CacheCall (π : Type) where
  | recordMessage (m : DedupMessage π) (now : ℤ) (order : String → ℕ)
  | cleanupExpired (now : ℤ)
  | isDuplicate (m : DedupMessage π) (now : ℤ)

def CacheCall.now : CacheCall π → ℤ
  | .recordMessage _ now _ | .cleanupExpired now | .isDuplicate _ now => now

def step (generateContentHash : π → String) (cfg : CacheConfig) (entries : Entries) :
    CacheCall π → Entries
  | .recordMessage m now order =>
    (DeduplicationCache.recordMessage generateContentHash cfg order entries m now).2
  | .cleanupExpired now => retain (unexpired now) entries
  | .isDuplicate _ _ => entries

/-! ## What was recorded -/

/-- A message that was recorded, and its entry. -/
structure Recorded (π : Type) where
  message : DedupMessage π
  entry : DeduplicationEntry

/-- What was recorded, each message with whether every cleanup since has kept its entry, and the time
of the last call. -/
structure History (π : Type) where
  log : Log (Recorded π)
  clock : ℤ

def History.note (generateContentHash : π → String) (cfg : CacheConfig) (h : History π) (_ : Entries)
    (c : CacheCall π) (_ : Entries) : History π :=
  match c with
  | .recordMessage m now _ =>
    match getDeduplicationKey generateContentHash cfg.strategy m with
    | .error _ => { h with clock := now }
    | .ok key =>
      match newEntry generateContentHash cfg m key now with
      | none => { h with clock := now }
      | some entry => ⟨h.log.put ⟨m, entry⟩, now⟩
  | .cleanupExpired now => ⟨h.log.sweep Recorded.entry (unexpired now), now⟩
  | .isDuplicate _ now => { h with clock := now }

section Claims

variable (generateContentHash : π → String) (cfg : CacheConfig)

def stepNoted : Entries × History π → CacheCall π → Entries × History π :=
  withHistory (step generateContentHash cfg) (History.note generateContentHash cfg)

/-- The clock does not go back, the cache has room, and the hash of no other payload is that of the
message. -/
def Calm (q : Entries × History π) (c : CacheCall π) : Prop :=
  q.2.clock ≤ c.now ∧
    match c with
    | .recordMessage _ _ _ => q.1.entries.length < cfg.maxCacheEntries
    | .cleanupExpired _ => True
    | .isDuplicate m _ => ∀ p ∈ q.2.log,
      generateContentHash p.item.message.payload = generateContentHash m.payload →
        p.item.message.payload = m.payload

/-- A message recorded within the window repeats the deduplication id, or the payload. -/
def Repeated (log : Log (Recorded π)) (m : DedupMessage π) (now : ℤ) : Prop :=
  ∃ p ∈ log, Within cfg.deduplicationWindowSeconds now p.item.entry.createdAt ∧
    ((cfg.strategy = .messageId ∨ cfg.strategy = .both) ∧
        p.item.message.messageDeduplicationId = m.messageDeduplicationId ∨
      (cfg.strategy = .content ∨ cfg.strategy = .both) ∧ p.item.message.payload = m.payload)

/-- There is an answer, and it says whether `P` holds. -/
def Says (answer : Option Bool) (P : Prop) : Prop := ∃ b, answer = some b ∧ (b = true ↔ P)

/-- `is_duplicate` says whether the message is repeated. -/
def AnsweredRight (q : Entries × History π) : CacheCall π → Prop
  | .isDuplicate m now =>
    Says (DeduplicationCache.isDuplicate generateContentHash cfg q.1 m) (Repeated cfg q.2.log m now)
  | _ => True

/-- What the lookups of `is_duplicate` find says whether the message is repeated. -/
def FoundRight (q : Entries × History π) : CacheCall π → Prop
  | .isDuplicate m now =>
    Says (checkKeys generateContentHash cfg false q.1 m) (Repeated cfg q.2.log m now)
  | _ => True

/-- `is_duplicate` has no key to check. -/
def Keyless : CacheCall π → Prop
  | .isDuplicate m _ =>
    cfg.strategy = .none ∨ cfg.strategy = .messageId ∧ m.messageDeduplicationId = none
  | _ => True

/-- A message recorded within the window has the key that the message would be recorded under. -/
def OwnRepeated (log : Log (Recorded π)) (m : DedupMessage π) (now : ℤ) : Prop :=
  ∃ p ∈ log, Within cfg.deduplicationWindowSeconds now p.item.entry.createdAt ∧
    getDeduplicationKey generateContentHash cfg.strategy m = .ok p.item.entry.key

/-- Under `Both` a message recorded within the window has the payload. -/
def PayloadRepeated (log : Log (Recorded π)) (m : DedupMessage π) (now : ℤ) : Prop :=
  cfg.strategy = .both ∧ ∃ p ∈ log,
    Within cfg.deduplicationWindowSeconds now p.item.entry.createdAt ∧
      p.item.message.payload = m.payload

/-- Under `Both` the cache holds the text of the content hash as a deduplication id. -/
def HashHeld (entries : Entries) (m : DedupMessage π) : Prop :=
  cfg.strategy = .both ∧ (entries.lookup (generateContentHash m.payload)).isSome = true

/-- The cache holds the key that the message would be recorded under. -/
def OwnHeld (entries : Entries) (m : DedupMessage π) : Prop :=
  ∃ key, getDeduplicationKey generateContentHash cfg.strategy m = .ok key ∧
    (entries.lookup key).isSome = true

/-- Under `Both`, a payload that is repeated comes with a key that the cache holds. Otherwise the
entry under the key of the message, if there is one, was recorded within the window, the content
hash is held only beside a repeated key, and a window that is negative as an `i64` has not made a
cleanup drop the key. -/
def Settled (q : Entries × History π) : CacheCall π → Prop
  | .isDuplicate m now =>
    (PayloadRepeated cfg q.2.log m now →
      OwnHeld generateContentHash cfg q.1 m ∨ HashHeld generateContentHash cfg q.1 m) ∧
    (¬ PayloadRepeated cfg q.2.log m now →
      (∀ key, getDeduplicationKey generateContentHash cfg.strategy m = .ok key →
        ∀ entry ∈ q.1.lookup key, Within cfg.deduplicationWindowSeconds now entry.createdAt) ∧
      (HashHeld generateContentHash cfg q.1 m → OwnRepeated generateContentHash cfg q.2.log m now) ∧
      (2 ^ 63 ≤ cfg.deduplicationWindowSeconds.toNat →
        OwnRepeated generateContentHash cfg q.2.log m now →
          OwnHeld generateContentHash cfg q.1 m ∨ HashHeld generateContentHash cfg q.1 m))
  | _ => True

end Claims

/-- Storing an entry evicts another unexpired one only when the cache holds as many other unexpired
keys as it may. -/
def EvictedRight (maxEntries : ℕ) (order : String → ℕ) (entries : Entries)
    (entry : DeduplicationEntry) (now : ℤ) : Prop :=
  ∀ key other, key ≠ entry.key → entries.lookup key = some other → unexpired now other = true →
    (storeEntry maxEntries order entries entry now).lookup key = none →
      maxEntries ≤ ((retain (unexpired now) entries).erase entry.key).entries.length

/-! ## The lookups -/

section Lookups

variable {generateContentHash : π → String} {cfg : CacheConfig} {entries : Entries}
  {m : DedupMessage π}

theorem Says.iff {answer : Option Bool} {P Q : Prop} (h : Says answer Q) :
    Says answer P ↔ (P ↔ Q) := by
  obtain ⟨b, rfl, hQ⟩ := h
  constructor
  · rintro ⟨b', hb, hP⟩
    cases hb
    exact hP.symm.trans hQ
  · intro hPQ
    exact ⟨b, rfl, hQ.trans hPQ.symm⟩

/-- The lookups find the key that the message would be recorded under, or its hash. -/
theorem says_checkKeys :
    Says (checkKeys generateContentHash cfg false entries m)
      (OwnHeld generateContentHash cfg entries m ∨ HashHeld generateContentHash cfg entries m) := by
  obtain ⟨strategy, window, maxEntries⟩ := cfg
  obtain ⟨id, payload⟩ := m
  cases strategy with
  | none => exact ⟨false, rfl, by simp [OwnHeld, HashHeld, getDeduplicationKey]⟩
  | messageId =>
    cases id with
    | none => exact ⟨false, rfl, by simp [OwnHeld, HashHeld, getDeduplicationKey]⟩
    | some id => exact ⟨_, rfl, by simp [OwnHeld, HashHeld, getDeduplicationKey]⟩
  | content => exact ⟨_, rfl, by simp [OwnHeld, HashHeld, getDeduplicationKey]⟩
  | both =>
    cases id with
    | none => exact ⟨_, rfl, by simp [OwnHeld, HashHeld, getDeduplicationKey]⟩
    | some id => exact ⟨_, rfl, by simp [OwnHeld, HashHeld, getDeduplicationKey]⟩

/-- `is_duplicate` answers exactly when it checks no key. -/
theorem isDuplicate_eq :
    isDuplicate generateContentHash cfg entries m =
      if Locks.keysToCheck cfg.strategy m.messageDeduplicationId.isSome = 0 then some false
      else none := by
  obtain ⟨strategy, window, maxEntries⟩ := cfg
  obtain ⟨id, payload⟩ := m
  cases strategy <;> cases id <;> rfl

theorem keysToCheck_eq_zero_iff :
    Locks.keysToCheck cfg.strategy m.messageDeduplicationId.isSome = 0 ↔
      cfg.strategy = .none ∨ cfg.strategy = .messageId ∧ m.messageDeduplicationId = none := by
  obtain ⟨strategy, window, maxEntries⟩ := cfg
  obtain ⟨id, payload⟩ := m
  cases strategy <;> cases id <;> simp [Locks.keysToCheck]

end Lookups

/-! ## Storing -/

section Storing

variable {maxEntries : ℕ} {order : String → ℕ} {entries : Entries} {entry : DeduplicationEntry}
  {now : ℤ} {key : String}

theorem makeRoom_of_lt (h : entries.entries.length < maxEntries) :
    makeRoom maxEntries order entries now = entries := by
  have hle : ¬ maxEntries ≤ entries.entries.length := Nat.not_le_of_lt h
  rw [makeRoom, if_neg hle, if_neg hle]

theorem length_erase (key : String) :
    (entries.erase key).entries.length =
      if (entries.lookup key).isSome then entries.entries.length - 1 else entries.entries.length := by
  have hkeys : ∀ cache : Entries, cache.keys.length = cache.entries.length :=
    fun cache => List.length_map _
  rw [← hkeys, ← hkeys, AList.keys_erase, List.length_erase]
  by_cases hmem : key ∈ entries
  · rw [if_pos (AList.mem_keys.mp hmem), if_pos (AList.lookup_isSome.mpr hmem)]
  · rw [if_neg (mt AList.mem_keys.mpr hmem), if_neg (mt AList.lookup_isSome.mp hmem)]

/-- The oldest key is one of the cache. -/
theorem exists_of_oldestKey (h : oldestKey order entries = some key) :
    ∃ old, entries.lookup key = some old := by
  obtain ⟨e, he, rfl⟩ := Option.map_eq_some_iff.mp h
  exact ⟨e.2, AList.mem_lookup_iff.mpr ((List.mem_insertionSort _).mp (List.mem_of_mem_head? he))⟩

theorem oldestKey_eq_none (h : oldestKey order entries = none) (key : String) :
    entries.lookup key = none := by
  rw [oldestKey, Option.map_eq_none_iff, List.head?_eq_none_iff, ← List.length_eq_zero_iff,
    List.length_insertionSort, List.length_eq_zero_iff] at h
  refine AList.lookup_eq_none.mpr fun hmem => ?_
  rw [AList.mem_keys, AList.keys, h] at hmem
  cases hmem

theorem lookup_unexpired_iff {old : DeduplicationEntry} :
    (retain (unexpired now) entries).lookup key = some old ↔
      entries.lookup key = some old ∧ unexpired now old = true := by
  rw [lookup_retain]
  exact Option.filter_eq_some_iff

/-- The one unexpired entry that makes room is the oldest, when the unexpired entries fill the
cache. -/
theorem lookup_makeRoom_eq_none_iff {other : DeduplicationEntry}
    (hlookup : entries.lookup key = some other) (hother : unexpired now other = true) :
    (makeRoom maxEntries order entries now).lookup key = none ↔
      maxEntries ≤ (retain (unexpired now) entries).entries.length ∧
        oldestKey order (retain (unexpired now) entries) = some key := by
  have hkept : (retain (unexpired now) entries).lookup key = some other :=
    lookup_unexpired_iff.mpr ⟨hlookup, hother⟩
  by_cases hfull : maxEntries ≤ entries.entries.length
  · rw [makeRoom, if_pos hfull]
    by_cases hfilled : maxEntries ≤ (retain (unexpired now) entries).entries.length
    · rw [if_pos hfilled]
      cases holdest : oldestKey order (retain (unexpired now) entries) with
      | none =>
        rw [oldestKey_eq_none holdest] at hkept
        cases hkept
      | some key' =>
        by_cases hkey : key = key'
        · subst hkey
          exact iff_of_true (AList.lookup_erase _ _) ⟨hfilled, rfl⟩
        · refine iff_of_false ?_ fun h => hkey (Option.some.inj h.2).symm
          dsimp only
          rw [AList.lookup_erase_ne hkey, hkept]
          exact Option.some_ne_none other
    · rw [if_neg hfilled, hkept]
      exact iff_of_false (Option.some_ne_none other) fun h => hfilled h.1
  · have hfew : ¬ maxEntries ≤ (retain (unexpired now) entries).entries.length :=
      fun h => hfull (h.trans (List.length_filter_le ..))
    rw [makeRoom_of_lt (Nat.lt_of_not_le hfull), hlookup]
    exact iff_of_false (Option.some_ne_none other) fun h => hfew h.1

/-- The key is not one of exactly as many unexpired keys as the cache may hold, unless it is the
oldest of them. -/
def StoredApart (maxEntries : ℕ) (order : String → ℕ) (entries : Entries) (entry : DeduplicationEntry)
    (now : ℤ) : Prop :=
  ∀ old ∈ entries.lookup entry.key, unexpired now old = true →
    (retain (unexpired now) entries).entries.length = maxEntries →
      oldestKey order (retain (unexpired now) entries) = some entry.key

theorem evictedRight_iff :
    EvictedRight maxEntries order entries entry now ↔
      StoredApart maxEntries order entries entry now := by
  have hstored : ∀ key other, key ≠ entry.key → entries.lookup key = some other →
      unexpired now other = true →
        ((storeEntry maxEntries order entries entry now).lookup key = none ↔
          maxEntries ≤ (retain (unexpired now) entries).entries.length ∧
            oldestKey order (retain (unexpired now) entries) = some key) := by
    intro key other hkey hlookup hother
    rw [storeEntry, AList.lookup_insert_ne hkey]
    exact lookup_makeRoom_eq_none_iff hlookup hother
  constructor
  · intro hright old hold hunexpired hlength
    have hkept : (retain (unexpired now) entries).lookup entry.key = some old :=
      lookup_unexpired_iff.mpr ⟨hold, hunexpired⟩
    cases holdest : oldestKey order (retain (unexpired now) entries) with
    | none =>
      rw [oldestKey_eq_none holdest] at hkept
      cases hkept
    | some key =>
      by_contra hne
      have hkey : key ≠ entry.key := fun h => hne (congrArg some h)
      obtain ⟨other, hother⟩ := exists_of_oldestKey holdest
      obtain ⟨hlookup, hyoung⟩ := lookup_unexpired_iff.mp hother
      -- The others are one fewer than the limit.
      have hmax := hright key other hkey hlookup hyoung
        ((hstored key other hkey hlookup hyoung).mpr ⟨hlength.ge, holdest⟩)
      rw [length_erase, if_pos (by rw [hkept]; rfl)] at hmax
      have hpos : 0 < (retain (unexpired now) entries).entries.length :=
        List.length_pos_of_mem (AList.mem_lookup_iff.mp hkept)
      omega
  · intro hapart key other hkey hlookup hother hgone
    obtain ⟨hfilled, holdest⟩ := (hstored key other hkey hlookup hother).mp hgone
    rw [length_erase]
    split
    · next hsome =>
      obtain ⟨old, hold⟩ := Option.isSome_iff_exists.mp hsome
      obtain ⟨hlookup', hyoung⟩ := lookup_unexpired_iff.mp hold
      have hne : (retain (unexpired now) entries).entries.length ≠ maxEntries := by
        intro hlength
        have hown := hapart old hlookup' hyoung hlength
        rw [holdest] at hown
        exact hkey (Option.some.inj hown)
      omega
    · exact hfilled

end Storing

/-! ## What the cache holds -/

section Invariant

variable {generateContentHash : π → String} {cfg : CacheConfig} {q : Entries × History π}
  {m : DedupMessage π} {now : ℤ}

/-- The cache agrees with the log, the log is in the order of time, each entry is the one of its
message, and what a cleanup dropped had left the window. -/
structure Kept (generateContentHash : π → String) (cfg : CacheConfig) (q : Entries × History π) :
    Prop where
  accounts : Log.Accounts (fun a => a.entry.key) Recorded.entry q.2.log q.1
  ordered : (q.2.log.map (·.item)).Pairwise fun a b => b.entry.createdAt ≤ a.entry.createdAt
  past : ∀ a ∈ q.2.log.map (·.item), a.entry.createdAt ≤ q.2.clock
  keyed : ∀ a ∈ q.2.log.map (·.item),
    getDeduplicationKey generateContentHash cfg.strategy a.message = .ok a.entry.key
  expires : ∀ a ∈ q.2.log.map (·.item), a.entry.expiresAt =
    a.entry.createdAt + cfg.deduplicationWindowSeconds.toBitVec.toInt * 1000000000
  left : cfg.deduplicationWindowSeconds.toNat < 2 ^ 63 → ∀ p ∈ q.2.log, p.kept = false →
    ¬ Within cfg.deduplicationWindowSeconds q.2.clock p.item.entry.createdAt

theorem kept_new (clock : ℤ) : Kept generateContentHash cfg (∅, (⟨[], clock⟩ : History π)) where
  accounts := Log.Accounts.empty
  ordered := List.Pairwise.nil
  past := fun _ ha => absurd ha List.not_mem_nil
  keyed := fun _ ha => absurd ha List.not_mem_nil
  expires := fun _ ha => absurd ha List.not_mem_nil
  left := fun _ _ hp => absurd hp List.not_mem_nil

/-- Time passes. -/
theorem Kept.wait (h : Kept generateContentHash cfg q) (hclock : q.2.clock ≤ now) :
    Kept generateContentHash cfg (q.1, { q.2 with clock := now }) :=
  { h with
    past := fun a ha => (h.past a ha).trans hclock
    left := fun hwindow p hp hkept hwithin => h.left hwindow p hp hkept (hwithin.mono hclock) }

theorem newEntry_spec {key : String} {entry : DeduplicationEntry}
    (h : newEntry generateContentHash cfg m key now = some entry) :
    entry.key = key ∧ entry.createdAt = now ∧
      entry.expiresAt = now + cfg.deduplicationWindowSeconds.toBitVec.toInt * 1000000000 := by
  obtain ⟨expiresAt, hexpiry, rfl⟩ := Option.map_eq_some_iff.mp h
  refine ⟨rfl, rfl, ?_⟩
  rw [expiry, Authorization.cacheExpiry] at hexpiry
  split at hexpiry
  · exact (Option.some.inj hexpiry).symm
  · cases hexpiry

section

variable (h : Kept generateContentHash cfg q)
include h

theorem Kept.record (hclock : q.2.clock ≤ now) {key : String}
    (hkey : getDeduplicationKey generateContentHash cfg.strategy m = .ok key)
    {entry : DeduplicationEntry} (hentry : newEntry generateContentHash cfg m key now = some entry) :
    Kept generateContentHash cfg (q.1.insert entry.key entry, ⟨q.2.log.put ⟨m, entry⟩, now⟩) := by
  obtain ⟨rfl, rfl, hexpires⟩ := newEntry_spec hentry
  have hwait := h.wait hclock
  exact
    { accounts := h.accounts.put ⟨m, entry⟩
      ordered := List.pairwise_cons.mpr ⟨hwait.past, h.ordered⟩
      past := List.forall_mem_cons.mpr ⟨le_rfl, hwait.past⟩
      keyed := List.forall_mem_cons.mpr ⟨hkey, h.keyed⟩
      expires := List.forall_mem_cons.mpr ⟨hexpires, h.expires⟩
      left := fun hwindow => List.forall_mem_cons.mpr
        ⟨fun hkept => absurd hkept Bool.true_eq_false.mp, hwait.left hwindow⟩ }

theorem Kept.cleanup (hclock : q.2.clock ≤ now) :
    Kept generateContentHash cfg
      (retain (unexpired now) q.1, ⟨q.2.log.sweep Recorded.entry (unexpired now), now⟩) where
  accounts := h.accounts.sweep _
  ordered := by
    rw [Log.map_item_sweep]
    exact h.ordered
  past := by
    rw [Log.map_item_sweep]
    exact (h.wait hclock).past
  keyed := by
    rw [Log.map_item_sweep]
    exact h.keyed
  expires := by
    rw [Log.map_item_sweep]
    exact h.expires
  left := by
    intro hwindow p hp hkept hwithin
    obtain ⟨p', hp', rfl⟩ := List.mem_map.mp hp
    rcases Bool.and_eq_false_iff.mp hkept with hkept' | hexpired
    · exact (h.wait hclock).left hwindow p' hp' hkept' hwithin
    · have hexpires := h.expires p'.item (List.mem_map_of_mem hp')
      rw [toInt_of_lt hwindow] at hexpires
      have hpast : ¬ now < p'.item.entry.expiresAt := of_decide_eq_false hexpired
      unfold Within at hwithin
      dsimp only at hwithin
      omega

theorem Kept.step {c : CacheCall π}
    (hcalm : Calm generateContentHash cfg q c) :
    Kept generateContentHash cfg (stepNoted generateContentHash cfg q c) := by
  obtain ⟨hclock, hroom⟩ := hcalm
  cases c with
  | recordMessage m now order =>
    simp only [stepNoted, withHistory, DeduplicationCache.step, recordMessage, History.note]
    cases hkey : getDeduplicationKey generateContentHash cfg.strategy m with
    | error e => exact h.wait hclock
    | ok key =>
      dsimp only
      cases hentry : newEntry generateContentHash cfg m key now with
      | none => exact h.wait hclock
      | some entry =>
        dsimp only
        rw [storeEntry, makeRoom_of_lt hroom]
        exact h.record hclock hkey hentry
  | cleanupExpired now => exact h.cleanup hclock
  | isDuplicate m now => exact h.wait hclock

end

/-- A recorded message has the key of another exactly when it has the deduplication id or, under
`Content`, the payload. -/
theorem key_eq_iff {a : Recorded π}
    (hkeyed : getDeduplicationKey generateContentHash cfg.strategy a.message = .ok a.entry.key)
    (hhash : generateContentHash a.message.payload = generateContentHash m.payload →
      a.message.payload = m.payload) :
    getDeduplicationKey generateContentHash cfg.strategy m = .ok a.entry.key ↔
      (cfg.strategy = .messageId ∨ cfg.strategy = .both) ∧
          a.message.messageDeduplicationId = m.messageDeduplicationId ∨
        cfg.strategy = .content ∧ a.message.payload = m.payload := by
  have hid : ∀ strategy, strategy = .messageId ∨ strategy = .both →
      ∀ (m : DedupMessage π) key, getDeduplicationKey generateContentHash strategy m = .ok key ↔
        m.messageDeduplicationId = some key := by
    intro strategy hstrategy m key
    obtain ⟨id, payload⟩ := m
    rcases hstrategy with rfl | rfl <;> cases id <;> simp [getDeduplicationKey]
  cases hstrategy : cfg.strategy with
  | none => simp [getDeduplicationKey]
  | content =>
    rw [hstrategy] at hkeyed
    have hkey : generateContentHash a.message.payload = a.entry.key := Except.ok.inj hkeyed
    simp only [getDeduplicationKey, Except.ok.injEq, ← hkey]
    constructor
    · intro heq
      exact .inr ⟨trivial, hhash heq.symm⟩
    · rintro (⟨hne | hne, -⟩ | ⟨-, heq⟩)
      · cases hne
      · cases hne
      · rw [heq]
  | messageId =>
    rw [hstrategy] at hkeyed
    rw [hid _ (.inl rfl)] at hkeyed ⊢
    rw [hkeyed]
    simp [eq_comm]
  | both =>
    rw [hstrategy] at hkeyed
    rw [hid _ (.inr rfl)] at hkeyed ⊢
    rw [hkeyed]
    simp [eq_comm]

section

variable (h : Kept generateContentHash cfg q)
include h

/-- A message is repeated by its key or, under `Both`, by its payload. -/
theorem Kept.repeated_iff (hhash : ∀ p ∈ q.2.log, generateContentHash p.item.message.payload =
      generateContentHash m.payload → p.item.message.payload = m.payload) :
    Repeated cfg q.2.log m now ↔
      OwnRepeated generateContentHash cfg q.2.log m now ∨ PayloadRepeated cfg q.2.log m now := by
  constructor
  · rintro ⟨p, hp, hwithin, hsame⟩
    have hkey := key_eq_iff (m := m) (h.keyed p.item (List.mem_map_of_mem hp)) (hhash p hp)
    rcases hsame with hid | ⟨hcontent | hboth, hpayload⟩
    · exact .inl ⟨p, hp, hwithin, hkey.mpr (.inl hid)⟩
    · exact .inl ⟨p, hp, hwithin, hkey.mpr (.inr ⟨hcontent, hpayload⟩)⟩
    · exact .inr ⟨hboth, p, hp, hwithin, hpayload⟩
  · rintro (⟨p, hp, hwithin, hown⟩ | ⟨hboth, p, hp, hwithin, hpayload⟩)
    · have hkey := key_eq_iff (m := m) (h.keyed p.item (List.mem_map_of_mem hp)) (hhash p hp)
      refine ⟨p, hp, hwithin, (hkey.mp hown).imp_right fun hcontent => ?_⟩
      exact ⟨.inl hcontent.1, hcontent.2⟩
    · exact ⟨p, hp, hwithin, .inr ⟨.inr hboth, hpayload⟩⟩

/-- The newest entry under the key of a message is the youngest. -/
theorem Kept.ownRepeated_iff :
    OwnRepeated generateContentHash cfg q.2.log m now ↔
      ∃ key, getDeduplicationKey generateContentHash cfg.strategy m = .ok key ∧
        ∃ p, q.2.log.latest (fun a => a.entry.key) key = some p ∧
          Within cfg.deduplicationWindowSeconds now p.item.entry.createdAt := by
  constructor
  · rintro ⟨p', hp', hwithin, hkey⟩
    obtain ⟨p, hp⟩ := @Log.exists_latest _ _ _ (fun a => a.entry.key) _ _ _ hp' rfl
    have hle := Log.rel_latest (fun a b => b.entry.createdAt ≤ a.entry.createdAt) (fun _ => le_rfl)
      h.ordered hp hp' rfl
    refine ⟨_, hkey, p, hp, ?_⟩
    unfold Within at hwithin ⊢
    omega
  · rintro ⟨key, hkey, p, hp, hwithin⟩
    refine ⟨p, Log.mem_latest hp, hwithin, ?_⟩
    rw [hkey, ← Log.key_latest hp]

theorem Kept.foundRight_iff {c : CacheCall π}
    (hcalm : Calm generateContentHash cfg q c) :
    FoundRight generateContentHash cfg q c ↔ Settled generateContentHash cfg q c := by
  obtain ⟨hclock, hhash⟩ := hcalm
  cases c with
  | recordMessage m now order => exact Iff.rfl
  | cleanupExpired now => exact Iff.rfl
  | isDuplicate m now =>
    show Says _ _ ↔ _
    rw [says_checkKeys.iff, h.repeated_iff hhash]
    by_cases hpayload : PayloadRepeated cfg q.2.log m now
    · constructor
      · intro hiff
        exact ⟨fun _ => hiff.mp (.inr hpayload), fun hne => absurd hpayload hne⟩
      · intro hsettled
        exact iff_of_true (.inr hpayload) (hsettled.1 hpayload)
    · rw [or_iff_left hpayload]
      constructor
      · intro hiff
        refine ⟨fun hrepeated => absurd hrepeated hpayload, fun _ => ⟨fun key hkey entry hentry => ?_,
          fun hheld => hiff.mpr (.inr hheld), fun _ hown => hiff.mp hown⟩⟩
        have hown : OwnHeld generateContentHash cfg q.1 m := ⟨key, hkey, by rw [hentry]; rfl⟩
        obtain ⟨key', hkey', p, hp, hwithin⟩ := h.ownRepeated_iff.mp (hiff.mpr (.inl hown))
        obtain rfl : key = key' := Except.ok.inj (hkey.symm.trans hkey')
        obtain ⟨p', hp', -, rfl⟩ := h.accounts.lookup_eq_some_iff.mp hentry
        rw [hp] at hp'
        cases hp'
        exact hwithin
      · intro hsettled
        obtain ⟨hyoung, hhashHeld, hnegative⟩ := hsettled.2 hpayload
        constructor
        · intro hown
          by_cases hwindow : cfg.deduplicationWindowSeconds.toNat < 2 ^ 63
          · obtain ⟨key, hkey, p, hp, hwithin⟩ := h.ownRepeated_iff.mp hown
            have hkept : p.kept = true := Bool.eq_true_of_not_eq_false fun hdropped =>
              h.left hwindow p (Log.mem_latest hp) hdropped (hwithin.mono hclock)
            refine .inl ⟨key, hkey, ?_⟩
            rw [h.accounts.lookup_eq_some_iff.mpr ⟨p, hp, hkept, rfl⟩]
            rfl
          · exact hnegative (Nat.not_lt.mp hwindow) hown
        · rintro (⟨key, hkey, hheld⟩ | hheld)
          · obtain ⟨entry, hentry⟩ := Option.isSome_iff_exists.mp hheld
            obtain ⟨p, hp, -, rfl⟩ := h.accounts.lookup_eq_some_iff.mp hentry
            exact h.ownRepeated_iff.mpr ⟨key, hkey, p, hp, hyoung key hkey _ hentry⟩
          · exact hhashHeld hheld

/-- `is_duplicate` is right exactly when it has no key to check, and waits for itself otherwise. -/
theorem Kept.answeredRight_iff (c : CacheCall π) :
    AnsweredRight generateContentHash cfg q c ↔ Keyless cfg c := by
  cases c with
  | recordMessage m now order => exact Iff.rfl
  | cleanupExpired now => exact Iff.rfl
  | isDuplicate m now =>
    rw [AnsweredRight, Keyless, isDuplicate_eq, ← keysToCheck_eq_zero_iff]
    by_cases hkeys : Locks.keysToCheck cfg.strategy m.messageDeduplicationId.isSome = 0
    · refine iff_of_true ⟨false, if_pos hkeys, iff_of_false Bool.false_ne_true ?_⟩ hkeys
      rintro ⟨p, hp, -, hsame⟩
      rcases keysToCheck_eq_zero_iff.mp hkeys with hnone | ⟨hmessageId, hid⟩
      · rw [hnone] at hsame
        simp at hsame
      · -- What was recorded has an id.
        have hkeyed := h.keyed p.item (List.mem_map_of_mem hp)
        rw [hmessageId] at hsame hkeyed
        rw [hid] at hsame
        rcases hsame with ⟨-, hnone⟩ | ⟨hcontent | hboth, -⟩
        · rw [getDeduplicationKey, hnone] at hkeyed
          cases hkeyed
        · cases hcontent
        · cases hboth
    · rw [if_neg hkeys]
      refine iff_of_false ?_ hkeys
      rintro ⟨b, hb, -⟩
      cases hb

end

end Invariant

/-- In every run `is_duplicate` is right when it never has a key to check, its lookups are right
when each of them meets the condition, and a stored entry evicts another unexpired one for want of
room when it is stored apart. -/
theorem duplicate_right_iff (generateContentHash : π → String) (cfg : CacheConfig) (clock : ℤ)
    (cs : List (CacheCall π)) (maxEntries : ℕ) (order : String → ℕ) (entries : Entries)
    (entry : DeduplicationEntry) (now : ℤ)
    (hcalm : Along (stepNoted generateContentHash cfg) (Calm generateContentHash cfg)
      (∅, ⟨[], clock⟩) cs) :
    (Along (stepNoted generateContentHash cfg) (AnsweredRight generateContentHash cfg)
          (∅, ⟨[], clock⟩) cs ↔
        Along (stepNoted generateContentHash cfg) (fun _ => Keyless cfg) (∅, ⟨[], clock⟩) cs) ∧
      (Along (stepNoted generateContentHash cfg) (FoundRight generateContentHash cfg)
          (∅, ⟨[], clock⟩) cs ↔
        Along (stepNoted generateContentHash cfg) (Settled generateContentHash cfg)
          (∅, ⟨[], clock⟩) cs) ∧
      (EvictedRight maxEntries order entries entry now ↔
        StoredApart maxEntries order entries entry now) := by
  have hstep : ∀ q c, Kept generateContentHash cfg q → Calm generateContentHash cfg q c →
      Kept generateContentHash cfg (stepNoted generateContentHash cfg q c) :=
    fun q c h hc => h.step hc
  refine ⟨?_, ?_, evictedRight_iff⟩
  · exact along_congr_of_invariant _ hstep (fun q c h _ => h.answeredRight_iff c) (kept_new clock)
      hcalm
  · exact along_congr_of_invariant _ hstep (fun q c h hc => h.foundRight_iff hc) (kept_new clock)
      hcalm

/-! ## Runs without a payload -/

/-- The hash of `null`. -/
def nullHash (_ : Unit) : String := "bd60acb658c79e45"

def message (id : String) : DedupMessage Unit := ⟨some id, ()⟩

def config (strategy : DeduplicationStrategy) : CacheConfig := ⟨strategy, 300, 100000⟩

section Decisions

variable [DecidableEq π] (generateContentHash : π → String) (cfg : CacheConfig)
  (q : Entries × History π) (m : DedupMessage π) (now : ℤ)

instance (answer : Option Bool) (P : Prop) [Decidable P] : Decidable (Says answer P) :=
  decidable_of_iff (∃ b ∈ answer, (b = true ↔ P)) Iff.rfl

instance : Decidable (Repeated cfg q.2.log m now) := by
  unfold Repeated
  infer_instance

instance : Decidable (PayloadRepeated cfg q.2.log m now) := by
  unfold PayloadRepeated
  infer_instance

instance : Decidable (OwnRepeated generateContentHash cfg q.2.log m now) := by
  unfold OwnRepeated
  infer_instance

instance : Decidable (OwnHeld generateContentHash cfg q.1 m) := by
  unfold OwnHeld
  infer_instance

instance : Decidable (HashHeld generateContentHash cfg q.1 m) := by
  unfold HashHeld
  infer_instance

instance : ∀ c, Decidable (Calm generateContentHash cfg q c)
  | .recordMessage _ _ _ => inferInstanceAs (Decidable (_ ∧ _))
  | .cleanupExpired _ => inferInstanceAs (Decidable (_ ∧ _))
  | .isDuplicate _ _ => inferInstanceAs (Decidable (_ ∧ _))

instance : ∀ c, Decidable (AnsweredRight generateContentHash cfg q c)
  | .recordMessage _ _ _ => .isTrue trivial
  | .cleanupExpired _ => .isTrue trivial
  | .isDuplicate _ _ => inferInstanceAs (Decidable (Says _ _))

instance : ∀ c, Decidable (FoundRight generateContentHash cfg q c)
  | .recordMessage _ _ _ => .isTrue trivial
  | .cleanupExpired _ => .isTrue trivial
  | .isDuplicate _ _ => inferInstanceAs (Decidable (Says _ _))

instance : ∀ c, Decidable (Settled generateContentHash cfg q c)
  | .recordMessage _ _ _ => .isTrue trivial
  | .cleanupExpired _ => .isTrue trivial
  | .isDuplicate _ _ => inferInstanceAs (Decidable (_ ∧ _))

end Decisions

/-- The iteration of a map whose keys have one letter. -/
def byLetter (key : String) : ℕ := (key.toList.headD 'a').toNat

/-- Two entries that were stored at 0 and 1 seconds, for 300 seconds each. -/
def pair : Entries :=
  ((∅ : Entries).insert "a" ⟨"a", none, 0, 300000000000⟩).insert "b"
    ⟨"b", none, 1000000000, 301000000000⟩

/-- A message is recorded, looked up within the window, and again when its entry was cleaned up. -/
def cleanedRun : List (CacheCall Unit) :=
  [.recordMessage (message "a") 0 byLetter, .isDuplicate (message "a") 10000000000,
    .cleanupExpired 301000000000, .isDuplicate (message "a") 302000000000]

/-- The lookups of the run are right, its answers are not, and to store a third entry is right. -/
theorem duplicate_right_cleaned :
    ¬ Along (stepNoted nullHash (config .messageId)) (AnsweredRight nullHash (config .messageId))
        (∅, ⟨[], 0⟩) cleanedRun ∧
      Along (stepNoted nullHash (config .messageId)) (FoundRight nullHash (config .messageId))
        (∅, ⟨[], 0⟩) cleanedRun ∧
      EvictedRight 2 byLetter pair ⟨"c", none, 2000000000, 302000000000⟩ 2000000000 := by
  obtain ⟨hanswered, hfound, hevicted⟩ := duplicate_right_iff nullHash (config .messageId) 0
    cleanedRun 2 byLetter pair ⟨"c", none, 2000000000, 302000000000⟩ 2000000000 (by decide +kernel)
  refine ⟨fun hright => ?_, hfound.mpr (by decide +kernel), hevicted.mpr ?_⟩
  · have hkeyless := (hanswered.mp hright).2.1
    rcases hkeyless with hnone | ⟨-, hid⟩
    · cases hnone
    · cases hid
  · intro old hold
    cases hold

/-- `is_duplicate` never answers of a message with an id. Its lookups find an entry that has expired,
and do not find a payload that was recorded under another id. To store the newer of two entries anew
evicts the other. -/
theorem not_duplicate_right :
    ¬ Along (stepNoted nullHash (config .messageId)) (AnsweredRight nullHash (config .messageId))
        (∅, ⟨[], 0⟩)
        [.recordMessage (message "a") 0 byLetter, .isDuplicate (message "a") 10000000000] ∧
      ¬ Along (stepNoted nullHash (config .both)) (FoundRight nullHash (config .both))
        (∅, ⟨[], 0⟩)
        [.recordMessage (message "a") 0 byLetter, .isDuplicate (message "b") 10000000000] ∧
      ¬ Along (stepNoted nullHash (config .messageId)) (FoundRight nullHash (config .messageId))
        (∅, ⟨[], 0⟩)
        [.recordMessage (message "a") 0 byLetter, .isDuplicate (message "a") 301000000000] ∧
      ¬ EvictedRight 2 byLetter pair ⟨"b", none, 2000000000, 302000000000⟩ 2000000000 := by
  refine ⟨by decide +kernel, by decide +kernel, by decide +kernel, fun hright => ?_⟩
  have hmax := hright "a" ⟨"a", none, 0, 300000000000⟩ (by decide) (by decide +kernel)
    (by decide +kernel) (by decide +kernel)
  exact absurd hmax (by decide +kernel)

end Backbone.Queue.DeduplicationCache
