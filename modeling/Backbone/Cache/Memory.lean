import Backbone.Authorization.Service
import Backbone.Lib.Cache

/-!
# The cache in memory

`MemoryCache` keeps a map of entries behind a lock. A call takes the lock once for each thing it
does: a `set` drops what is expired, makes room, and inserts; a `get` drops what is expired, clones
the entry, and writes the clone back with the time of the access.

An instant is its nanoseconds. The text of a value is what `serde_json` makes of it, and the
statistics of the cache are left out.

Reference: `backbone-cache/src/memory.rs` and `traits.rs`.
-/

namespace Backbone.Cache.Memory

open Authorization (cacheExpiry)

variable {β : Type}

structure CacheEntry (β : Type) where
  data : β
  createdAt : ℤ
  expiresAt : Option ℤ
  accessCount : ℕ
  lastAccessed : Option ℤ
deriving DecidableEq, Repr

namespace CacheEntry

/-- `CacheEntry::new`, or the panic of a time to live out of the range of `chrono`. -/
def new (now : ℤ) (data : β) : Option UInt64 → Option (CacheEntry β)
  | none => some ⟨data, now, none, 0, none⟩
  | some ttl => (cacheExpiry now ttl).map fun expiresAt => ⟨data, now, some expiresAt, 0, none⟩

def isExpired (now : ℤ) (e : CacheEntry β) : Bool := e.expiresAt.any (· < now)

def markAccessed (now : ℤ) (e : CacheEntry β) : CacheEntry β :=
  { e with accessCount := e.accessCount + 1, lastAccessed := some now }

/-- When the entry was used last; one that was never read was used when it was made. -/
def recency (e : CacheEntry β) : ℤ := e.lastAccessed.getD e.createdAt

end CacheEntry

/-- `HashMap<String, CacheEntry<Vec<u8>>>`. -/
abbrev Entries (β : Type) := AList fun _ : String => CacheEntry β

/-- `cleanup_expired`. -/
def cleanupExpired (now : ℤ) (m : Entries β) : Entries β := retain (fun e => !e.isExpired now) m

/-- Used less recently than another entry, or as recently and in front of it in the map's iteration
order, which is arbitrary: `rank` orders the keys. -/
def usedBefore (rank : String → ℕ) (a b : (_ : String) × CacheEntry β) : Bool :=
  a.2.recency < b.2.recency || (a.2.recency = b.2.recency && rank a.1 ≤ rank b.1)

/-- The least recently used entry; `min_by_key` takes the first of several. -/
def leastRecent (rank : String → ℕ) (m : Entries β) : Option String :=
  (m.entries.find? fun e => m.entries.all (usedBefore rank e)).map (·.1)

/-- What `evict_if_needed` removes. -/
def victim (maxEntries : Option ℕ) (rank : String → ℕ) (m : Entries β) : Option String :=
  maxEntries.bind fun n => if m.entries.length < n then none else leastRecent rank m

def evictIfNeeded (maxEntries : Option ℕ) (rank : String → ℕ) (m : Entries β) : Entries β :=
  match victim maxEntries rank m with
  | some key => m.erase key
  | none => m

/-- What a cache answers for a key at an instant: the text of the value and when it expires. -/
def held (now : ℤ) (m : Entries β) (key : String) : Option (β × Option ℤ) :=
  ((m.lookup key).filter fun e => !e.isExpired now).map fun e => (e.data, e.expiresAt)

/-! ## What the sections leave -/

section Sections

variable {now : ℤ} {m : Entries β} {key : String} {key' : String} {e : CacheEntry β}

theorem lookup_cleanupExpired :
    (cleanupExpired now m).lookup key = (m.lookup key).filter fun e => !e.isExpired now :=
  lookup_retain

/-- Dropping what is expired changes no answer. -/
theorem held_cleanupExpired : held now (cleanupExpired now m) key = held now m key := by
  rw [held, lookup_cleanupExpired, Option.filter_filter, held]
  simp

theorem held_erase_of_ne (h : key' ≠ key) : held now (m.erase key) key' = held now m key' := by
  rw [held, AList.lookup_erase_ne h, held]

theorem held_eq_none_iff :
    held now m key = none ↔ ∀ e, m.lookup key = some e → e.isExpired now = true := by
  simp [held, Option.filter_eq_none_iff]

/-- Dropping an expired entry changes no answer. -/
theorem held_erase_of_expired (h : ∀ e, m.lookup key = some e → e.isExpired now = true)
    (key' : String) : held now (m.erase key) key' = held now m key' := by
  by_cases hkey : key' = key
  · subst hkey
    rw [held_eq_none_iff.mpr h, held, AList.lookup_erase]
    rfl
  · exact held_erase_of_ne hkey

theorem held_insert_of_ne (h : key' ≠ key) : held now (m.insert key e) key' = held now m key' := by
  rw [held, AList.lookup_insert_ne h, held]

/-- An entry with the same text and the same expiry changes no answer. -/
theorem held_insert_of_same {e₀ : CacheEntry β} (h : m.lookup key = some e₀)
    (hdata : e.data = e₀.data) (hexpires : e.expiresAt = e₀.expiresAt) (key' : String) :
    held now (m.insert key e) key' = held now m key' := by
  by_cases hkey : key' = key
  · subst hkey
    simp only [held, AList.lookup_insert, h, Option.filter_some, CacheEntry.isExpired, hexpires]
    split <;> simp [hdata, hexpires]
  · exact held_insert_of_ne hkey

theorem mem_of_leastRecent {rank : String → ℕ} (h : leastRecent rank m = some key) :
    ∃ e, m.lookup key = some e ∧ ∀ key' e', m.lookup key' = some e' → e.recency ≤ e'.recency := by
  obtain ⟨e, he, rfl⟩ := Option.map_eq_some_iff.mp h
  refine ⟨e.2, AList.mem_lookup_iff.mpr (List.mem_of_find?_eq_some he), fun key' e' h' => ?_⟩
  have hleast := List.find?_some he
  have hall := List.all_eq_true.mp hleast ⟨key', e'⟩ (AList.mem_lookup_iff.mp h')
  have hbefore : e.2.recency < e'.recency ∨ e.2.recency = e'.recency ∧ rank e.1 ≤ rank key' := by
    simpa [usedBefore] using hall
  omega

end Sections

end Backbone.Cache.Memory
