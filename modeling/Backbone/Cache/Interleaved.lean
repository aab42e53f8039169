import Backbone.Cache.Memory
import Backbone.Lib.Run

/-!
# The cache in memory among its calls

A call of `MemoryCache` is a sequence of sections under the lock, and the sections of the calls
interleave. What a section finds may not be what the one before it left: a `get` writes back the
clone it took, also over a value that was stored, deleted or moved since, and two calls of `set` can
make room for one entry and insert two. A `set` makes room before it knows whether it needs any, for
a key that is there already and for a value that cannot be serialised.

Reference: `backbone-cache/src/memory.rs`.
-/

namespace Backbone.Cache.Memory

open Machine

variable {β : Type}

/-- How far a call is. -/
inductive Call (β : Type) where
  /-- A `set` that is to make room. Its value as `serde_json` writes it, or the error. -/
  | evicting (key : String) (value : Except String β) (ttl : Option UInt64)
  /-- It is to serialise its value and make the entry. -/
  | serializing (key : String) (value : Except String β) (ttl : Option UInt64)
  | inserting (key : String) (entry : CacheEntry β)
  /-- A `get` that is to clone the entry; `decodes` are the texts its type can be read from. -/
  | reading (key : String) (decodes : β → Bool)
  | cloned (key : String) (entry : CacheEntry β) (decodes : β → Bool)
  /-- It is to write its clone back. -/
  | writing (key : String) (entry : CacheEntry β)
  /-- It found its clone expired, and is to remove the entry. -/
  | removing (key : String)

/-- A cache among its calls; a call that has returned is gone. -/
structure World (β : Type) where
  entries : Entries β
  now : ℤ
  calls : ℕ → Option (Call β)

namespace World

def new (β : Type) : World β := ⟨∅, 0, fun _ => none⟩

variable (s : World β)

/-- The call goes on, or returns. -/
def proceed (i : ℕ) (k : Option (Call β)) : World β := { s with calls := Function.update s.calls i k }

/-- No call is in progress. -/
def Idle : Prop := ∀ i, s.calls i = none

/-- What the cache answers for a key now. -/
def answer (key : String) : Option (β × Option ℤ) := held s.now s.entries key

end World

/-- A section of a call, or the clock. -/
inductive Act (β : Type) where
  | clock (now : ℤ)
  /-- A call of `set` starts and drops what is expired. -/
  | set (i : ℕ) (key : String) (value : Except String β) (ttl : Option UInt64)
  | evict (i : ℕ) (rank : String → ℕ)
  | serialize (i : ℕ)
  | insert (i : ℕ)
  /-- A call of `get` starts and drops what is expired. -/
  | get (i : ℕ) (key : String) (decodes : β → Bool)
  | clone (i : ℕ)
  /-- It looks at the expiry of its clone, marks it as accessed and deserialises it. -/
  | deserialize (i : ℕ)
  | writeBack (i : ℕ)
  | remove (i : ℕ)
  | delete (key : String)
  | expire (key : String) (ttl : UInt64)
  | clear

namespace World

/-- One section; what cannot happen leaves the world as it is. -/
def step (maxEntries : Option ℕ) (s : World β) : Act β → World β
  | .clock now => { s with now := now }
  | .set i key value ttl =>
    match s.calls i with
    | none =>
      { s with entries := cleanupExpired s.now s.entries }.proceed i (some (.evicting key value ttl))
    | some _ => s
  | .evict i rank =>
    match s.calls i with
    | some (.evicting key value ttl) =>
      { s with entries := evictIfNeeded maxEntries rank s.entries }.proceed i
        (some (.serializing key value ttl))
    | _ => s
  | .serialize i =>
    match s.calls i with
    | some (.serializing key (.ok data) ttl) =>
      s.proceed i ((CacheEntry.new s.now data ttl).map (.inserting key ·))
    | some (.serializing _ (.error _) _) => s.proceed i none
    | _ => s
  | .insert i =>
    match s.calls i with
    | some (.inserting key entry) => { s with entries := s.entries.insert key entry }.proceed i none
    | _ => s
  | .get i key decodes =>
    match s.calls i with
    | none =>
      { s with entries := cleanupExpired s.now s.entries }.proceed i (some (.reading key decodes))
    | some _ => s
  | .clone i =>
    match s.calls i with
    | some (.reading key decodes) =>
      s.proceed i ((s.entries.lookup key).map fun entry => .cloned key entry decodes)
    | _ => s
  | .deserialize i =>
    match s.calls i with
    | some (.cloned key entry decodes) =>
      s.proceed i (if entry.isExpired s.now then some (.removing key)
        else if decodes entry.data then some (.writing key (entry.markAccessed s.now)) else none)
    | _ => s
  | .writeBack i =>
    match s.calls i with
    | some (.writing key entry) => { s with entries := s.entries.insert key entry }.proceed i none
    | _ => s
  | .remove i =>
    match s.calls i with
    | some (.removing key) => { s with entries := s.entries.erase key }.proceed i none
    | _ => s
  | .delete key => { s with entries := s.entries.erase key }
  | .expire key ttl =>
    match s.entries.lookup key, Authorization.cacheExpiry s.now ttl with
    | some entry, some expiresAt =>
      { s with entries := s.entries.insert key { entry with expiresAt := some expiresAt } }
    | _, _ => s
  | .clear => { s with entries := ∅ }

end World

/-! ## What is asked of a run -/

/-- What the cache does not keep: for each key the latest reading of the clock at which the entry
under it was made or accessed. -/
abbrev Uses := String → ℤ

/-- The use of a section that writes an entry; a clone may be older than what was written before. -/
def noteUse (h : Uses) (s : World β) (a : Act β) (_ : World β) : Uses :=
  match a with
  | .insert i =>
    match s.calls i with
    | some (.inserting key entry) => Function.update h key entry.recency
    | _ => h
  | .writeBack i =>
    match s.calls i with
    | some (.writing key entry) =>
      Function.update h key (if key ∈ s.entries then max (h key) entry.recency else entry.recency)
    | _ => h
  | _ => h

/-- The section belongs to a `get`. -/
def Act.isGet : Act β → Bool
  | .get _ _ _ | .clone _ | .deserialize _ | .writeBack _ | .remove _ => true
  | _ => false

/-- The section belongs to a `set` whose value cannot be serialised. -/
def FailingSet (s : World β) : Act β → Prop
  | .set _ _ value _ => ∃ e, value = .error e
  | .evict i _ => ∃ key e ttl, s.calls i = some (.evicting key (.error e) ttl)
  | .serialize i => ∃ key e ttl, s.calls i = some (.serializing key (.error e) ttl)
  | _ => False

/-- What the section does is what a bounded map does. -/
structure Linear (maxEntries : Option ℕ) (q : World β × Uses) (a : Act β) : Prop where
  /-- A read changes no answer. -/
  read : a.isGet = true → ∀ key, (q.1.step maxEntries a).answer key = q.1.answer key
  /-- With no call in progress the cache is within its bound. -/
  bounded : (q.1.step maxEntries a).Idle → ∀ n, maxEntries = some n →
    (q.1.step maxEntries a).entries.entries.length ≤ n
  /-- A `set` of a key that is there evicts no other one. -/
  present : ∀ i rank key value ttl, a = .evict i rank →
    q.1.calls i = some (.evicting key value ttl) → key ∈ q.1.entries →
    ∀ key', key' ≠ key → (q.1.step maxEntries a).answer key' = q.1.answer key'
  /-- A `set` that fails changes no answer. -/
  failed : FailingSet q.1 a → ∀ key, (q.1.step maxEntries a).answer key = q.1.answer key
  /-- No entry was used less recently than the evicted one. -/
  evicted : ∀ i rank key value ttl id, a = .evict i rank →
    q.1.calls i = some (.evicting key value ttl) → victim maxEntries rank q.1.entries = some id →
    ∀ key' ∈ q.1.entries, q.2 id ≤ q.2 key'

/-- The section finds what the call relies on. A `set` that has to make room does so for a new key
and a value that can be serialised, or removes what nobody misses, and it finds its place still
free; a `get` finds the entry it cloned, not accessed since, or an expired one that it is to remove.
-/
def Orderly (maxEntries : Option ℕ) (s : World β) : Act β → Prop
  | .evict i rank => ∀ key value ttl, s.calls i = some (.evicting key value ttl) →
    ∀ id, victim maxEntries rank s.entries = some id →
      (∀ e, s.entries.lookup id = some e → e.isExpired s.now = true) ∨
        (∃ data, value = .ok data) ∧ (key ∉ s.entries ∨ id = key)
  | .insert i => ∀ key entry, s.calls i = some (.inserting key entry) →
    key ∈ s.entries ∨ ∀ n, maxEntries = some n → s.entries.entries.length < n
  | .writeBack i => ∀ key entry, s.calls i = some (.writing key entry) →
    ∃ e, s.entries.lookup key = some e ∧ entry.data = e.data ∧ entry.expiresAt = e.expiresAt ∧
      e.recency ≤ entry.recency
  | .remove i => ∀ key, s.calls i = some (.removing key) →
    ∀ e, s.entries.lookup key = some e → e.isExpired s.now = true
  | _ => True

variable {maxEntries : Option ℕ} {s : World β} {a : Act β} {key : String} {rank : String → ℕ}
  {i : ℕ}
  {m : Entries β} {ttl : Option UInt64} {s' : World β} {entry : CacheEntry β} {q : World β × Uses}

/-! ## Answers -/

theorem answer_evictIfNeeded {now : ℤ}
    (h : ∀ id, victim maxEntries rank m = some id →
      (∀ e, m.lookup id = some e → e.isExpired now = true) ∨ id ≠ key) :
    held now (evictIfNeeded maxEntries rank m) key = held now m key := by
  unfold evictIfNeeded
  cases hvictim : victim maxEntries rank m with
  | none => rfl
  | some id =>
    rcases h id hvictim with hexpired | hne
    · exact held_erase_of_expired hexpired key
    · exact held_erase_of_ne hne.symm

theorem Orderly.read (h : Orderly maxEntries s a) (ha : a.isGet = true) (key : String) :
    (s.step maxEntries a).answer key = s.answer key := by
  cases a with
  | get i k decodes =>
    simp only [World.step]
    split
    · exact held_cleanupExpired
    · rfl
  | clone i =>
    simp only [World.step]
    split <;> rfl
  | deserialize i =>
    simp only [World.step]
    split <;> rfl
  | writeBack i =>
    simp only [World.step]
    split
    · rename_i k entry hi
      obtain ⟨e, he, hdata, hexpires, -⟩ := h k entry hi
      exact held_insert_of_same he hdata hexpires key
    · rfl
  | remove i =>
    simp only [World.step]
    split
    · rename_i k hi
      exact held_erase_of_expired (h k hi) key
    · rfl
  | clock | set | evict | serialize | insert | delete | expire | clear => cases ha

theorem Orderly.present {value : Except String β}
    (h : Orderly maxEntries s (.evict i rank)) (hi : s.calls i = some (.evicting key value ttl))
    (hmem : key ∈ s.entries) {key' : String} (hne : key' ≠ key) :
    (s.step maxEntries (.evict i rank)).answer key' = s.answer key' := by
  simp only [World.step, hi]
  refine answer_evictIfNeeded fun id hvictim => ?_
  rcases h key value ttl hi id hvictim with hexpired | ⟨-, hnew | rfl⟩
  · exact .inl hexpired
  · exact absurd hmem hnew
  · exact .inr hne.symm

theorem Orderly.failed (h : Orderly maxEntries s a) (ha : FailingSet s a) (key : String) :
    (s.step maxEntries a).answer key = s.answer key := by
  cases a with
  | set i k value ttl =>
    simp only [World.step]
    split
    · exact held_cleanupExpired
    · rfl
  | evict i rank =>
    obtain ⟨k, e, ttl, hi⟩ := ha
    simp only [World.step, hi]
    refine answer_evictIfNeeded fun id hvictim => ?_
    rcases h k _ ttl hi id hvictim with hexpired | ⟨⟨data, hdata⟩, -⟩
    · exact .inl hexpired
    · cases hdata
  | serialize i =>
    obtain ⟨k, e, ttl, hi⟩ := ha
    simp only [World.step, hi]
    rfl
  | get | clone | deserialize | writeBack | remove | clock | insert | delete | expire | clear =>
    exact ha.elim

/-! ## The bound, and the order of use -/

theorem length_insert_of_mem (h : key ∈ m) (e : CacheEntry β) :
    (m.insert key e).entries.length = m.entries.length := by
  have hkeys (m : Entries β) : m.entries.length = m.keys.length := (List.length_map _).symm
  have hpos : 0 < m.keys.length := List.length_pos_of_mem h
  rw [hkeys, hkeys, AList.keys_insert, List.length_cons, List.length_erase_of_mem h]
  omega

theorem length_insert_le (m : Entries β) (key : String) (e : CacheEntry β) :
    (m.insert key e).entries.length ≤ m.entries.length + 1 := by
  rw [AList.entries_insert, List.length_cons]
  exact Nat.succ_le_succ (List.kerase_sublist _ _).length_le

/-- The cache is within its bound, and its entries bear the time of their last use. -/
structure Tracked (maxEntries : Option ℕ) (q : World β × Uses) : Prop where
  size : ∀ n, maxEntries = some n → q.1.entries.entries.length ≤ n
  uses : ∀ key e, q.1.entries.lookup key = some e → q.2 key = e.recency

theorem tracked_new (h : Uses) : Tracked maxEntries (World.new β, h) where
  size n _ := Nat.zero_le n
  uses key e he := by cases he

theorem evictIfNeeded_sublist (rank : String → ℕ) (m : Entries β) :
    List.Sublist (evictIfNeeded maxEntries rank m).entries m.entries := by
  unfold evictIfNeeded
  split
  · exact List.kerase_sublist _ _
  · exact List.Sublist.refl _

/-- Entries may go. -/
theorem Tracked.sub {h : Uses} (ht : Tracked maxEntries (s, h))
    (hsub : List.Sublist s'.entries.entries s.entries.entries) : Tracked maxEntries (s', h) where
  size n hn := hsub.length_le.trans (ht.size n hn)
  uses key e he :=
    ht.uses key e (AList.mem_lookup_iff.mpr (hsub.subset (AList.mem_lookup_iff.mp he)))

/-- An entry that is written bears the use that is noted for it. -/
theorem Tracked.insert {h : Uses} (ht : Tracked maxEntries (s, h))
    {use : ℤ} (hentries : s'.entries = s.entries.insert key entry)
    (hroom : key ∈ s.entries ∨ ∀ n, maxEntries = some n → s.entries.entries.length < n)
    (huse : use = entry.recency) : Tracked maxEntries (s', Function.update h key use) where
  size n hn := by
    rw [hentries]
    rcases hroom with hmem | hroom
    · exact (length_insert_of_mem hmem entry).trans_le (ht.size n hn)
    · exact (length_insert_le _ key entry).trans (hroom n hn)
  uses key' e he := by
    rw [hentries] at he
    by_cases hkey : key' = key
    · subst hkey
      rw [AList.lookup_insert] at he
      cases he
      simp [huse]
    · rw [AList.lookup_insert_ne hkey] at he
      simpa [hkey] using ht.uses key' e he

theorem Tracked.step (ht : Tracked maxEntries q)
    (ha : Orderly maxEntries q.1 a) :
    Tracked maxEntries (withHistory (World.step maxEntries) noteUse q a) := by
  obtain ⟨s, h⟩ := q
  have hclean : List.Sublist (cleanupExpired s.now s.entries).entries s.entries.entries :=
    List.filter_sublist
  have hsame (s' : World β) (heq : s'.entries = s.entries) : Tracked maxEntries (s', h) :=
    ht.sub (by rw [heq])
  cases a with
  | clock now => exact hsame _ rfl
  | set i key value ttl =>
    simp only [withHistory, World.step, noteUse]
    split
    · exact ht.sub hclean
    · exact ht
  | evict i rank =>
    simp only [withHistory, World.step, noteUse]
    split
    · exact ht.sub (evictIfNeeded_sublist rank s.entries)
    · exact ht
  | serialize i =>
    simp only [withHistory, World.step, noteUse]
    split
    all_goals exact hsame _ rfl
  | insert i =>
    simp only [withHistory, World.step, noteUse]
    split
    · rename_i key entry hi
      exact ht.insert rfl (ha key entry hi) rfl
    · exact ht
  | get i key decodes =>
    simp only [withHistory, World.step, noteUse]
    split
    · exact ht.sub hclean
    · exact ht
  | clone i =>
    simp only [withHistory, World.step, noteUse]
    split
    all_goals exact hsame _ rfl
  | deserialize i =>
    simp only [withHistory, World.step, noteUse]
    split
    all_goals exact hsame _ rfl
  | writeBack i =>
    simp only [withHistory, World.step, noteUse]
    split
    · rename_i key entry hi
      obtain ⟨e, he, -, -, hle⟩ := ha key entry hi
      have hmem : key ∈ s.entries := AList.lookup_isSome.mp (by simp [he])
      have huse : h key = e.recency := ht.uses key e he
      refine ht.insert rfl (.inl hmem) ?_
      rw [if_pos hmem, huse, max_eq_right hle]
    · exact ht
  | remove i =>
    simp only [withHistory, World.step, noteUse]
    split
    · exact ht.sub (List.kerase_sublist _ _)
    · exact ht
  | delete key => exact ht.sub (List.kerase_sublist _ _)
  | expire key ttl =>
    simp only [withHistory, World.step, noteUse]
    split
    · rename_i entry expiresAt he _
      have hmem : key ∈ s.entries := AList.lookup_isSome.mp (by simp [he])
      have hmoved : Tracked maxEntries ({ s with
          entries := s.entries.insert key { entry with expiresAt := some expiresAt } },
          Function.update h key (h key)) :=
        ht.insert rfl (.inl hmem) (ht.uses key entry he)
      rwa [Function.update_eq_self] at hmoved
    · exact ht
  | clear => exact ht.sub (List.nil_sublist _)

/-! ## Runs -/

theorem Tracked.linear (ht : Tracked maxEntries q)
    (ha : Orderly maxEntries q.1 a) : Linear maxEntries q a where
  read hget key := ha.read hget key
  bounded _ n hn := (ht.step ha).size n hn
  present i rank key value ttl heq hi hmem key' hne := by
    subst heq
    exact ha.present hi hmem hne
  failed hfails key := ha.failed hfails key
  evicted i rank key value ttl id _ _ hvictim key' hkey' := by
    obtain ⟨n, -, hleast⟩ := Option.bind_eq_some_iff.mp hvictim
    split at hleast
    · cases hleast
    · obtain ⟨e, he, hmin⟩ := mem_of_leastRecent hleast
      obtain ⟨e', he'⟩ := Option.isSome_iff_exists.mp (AList.lookup_isSome.mpr hkey')
      rw [ht.uses id e he, ht.uses key' e' he']
      exact hmin key' e' he'

/-- Where every section of a run finds what its call relies on, the cache is a bounded map. -/
theorem linear_of_orderly (maxEntries : Option ℕ) (h : Uses) {acts : List (Act β)}
    (horderly : Along (withHistory (World.step maxEntries) noteUse)
      (fun q a => Orderly maxEntries q.1 a) (World.new β, h) acts) :
    Along (withHistory (World.step maxEntries) noteUse) (Linear maxEntries) (World.new β, h) acts :=
  along_of_invariant _ (I := Tracked maxEntries) (fun _ _ ht ha => ht.step ha)
    (fun _ _ ht ha => ht.linear ha) (tracked_new h) horderly

/-- A new key and a value that can be serialised are a reason to make room. -/
theorem orderly_evict {data : β}
    (hi : s.calls i = some (.evicting key (.ok data) ttl)) (hnew : key ∉ s.entries) :
    Orderly maxEntries s (.evict i rank) := by
  intro key' value ttl' hi' id _
  cases hi.symm.trans hi'
  exact .inr ⟨⟨data, rfl⟩, .inl hnew⟩

theorem orderly_insert {n : ℕ} (hroom : s.entries.entries.length < n) :
    Orderly (some n) s (.insert i) := by
  intro key' entry' _
  exact .inr fun n' hn' => by
    cases hn'
    exact hroom

theorem orderly_writeBack {e : CacheEntry β}
    (hi : s.calls i = some (.writing key entry)) (he : s.entries.lookup key = some e)
    (hdata : entry.data = e.data) (hexpires : entry.expiresAt = e.expiresAt)
    (hlater : e.recency ≤ entry.recency) : Orderly maxEntries s (.writeBack i) := by
  intro key' entry' hi'
  cases hi.symm.trans hi'
  exact ⟨e, he, hdata, hexpires, hlater⟩

/-- A call of `set` from its start to its end. -/
def setCall (i : ℕ) (key : String) (value : Except String ℕ) : List (Act ℕ) :=
  [.set i key value none, .evict i (fun _ => 0), .serialize i, .insert i]

/-- A key that is set and read, and another one that takes its place. -/
def inTurn : List (Act ℕ) :=
  setCall 0 "a" (.ok 1) ++ [.clock 1, .get 0 "a" (fun _ => true), .clone 0, .deserialize 0,
    .writeBack 0] ++ setCall 0 "b" (.ok 2)

theorem linear_inTurn :
    Along (withHistory (World.step (some 1)) noteUse) (Linear (some 1))
      (World.new ℕ, fun _ => 0) inTurn :=
  linear_of_orderly (some 1) (fun _ => 0)
    ⟨trivial, orderly_evict rfl (by decide), trivial, orderly_insert (by decide), trivial,
      trivial, trivial, trivial, orderly_writeBack rfl rfl rfl rfl (by decide), trivial,
      orderly_evict rfl (by decide), trivial, orderly_insert (by decide), trivial⟩

/-- A `get` that has cloned an entry which is deleted then. -/
def deletedMeanwhile : List (Act ℕ) :=
  setCall 0 "a" (.ok 1) ++ [.get 0 "a" (fun _ => true), .clone 0, .delete "a", .deserialize 0]

/-- Two calls of `set` that have made room in an empty cache before either inserts. -/
def twoSets : List (Act ℕ) :=
  [.set 0 "a" (.ok 1) none, .evict 0 (fun _ => 0), .serialize 0,
    .set 1 "b" (.ok 2) none, .evict 1 (fun _ => 0), .serialize 1, .insert 0]

/-- A cache of two with both keys, and the start of a third call of `set`. -/
def fullCache (key : String) (value : Except String ℕ) : List (Act ℕ) :=
  setCall 0 "a" (.ok 1) ++ [.clock 1] ++ setCall 0 "b" (.ok 2) ++ [.set 0 key value none]

/-- The state behind a run. -/
def behind (maxEntries : ℕ) (acts : List (Act ℕ)) : World ℕ × Uses :=
  run (withHistory (World.step (some maxEntries)) noteUse) (World.new ℕ, fun _ => 0) acts

/-- A read brings the deleted key back; two keys are held where there is room for one; a key that is
set anew evicts another one, and so does a value that cannot be serialised. -/
theorem not_linear :
    ¬ Linear (some 1) (behind 1 deletedMeanwhile) (.writeBack 0) ∧
      ¬ Linear (some 1) (behind 1 twoSets) (.insert 1) ∧
      ¬ Linear (some 2) (behind 2 (fullCache "b" (.ok 3))) (.evict 0 fun _ => 0) ∧
      ¬ Linear (some 2) (behind 2 (fullCache "c" (.error "key must be a string")))
        (.evict 0 fun _ => 0) := by
  refine ⟨fun h => ?_, fun h => ?_, fun h => ?_, fun h => ?_⟩
  · exact absurd (h.read rfl "a") (by decide +kernel)
  · have hidle : ((behind 1 twoSets).1.step (some 1) (.insert 1)).Idle := by
      intro i
      rcases i with _ | _ | i
      all_goals rfl
    exact absurd (h.bounded hidle 1 rfl) (by decide +kernel)
  · exact absurd (h.present 0 _ "b" (.ok 3) none rfl rfl (by decide +kernel) "a" (by decide))
      (by decide +kernel)
  · exact absurd (h.failed ⟨"c", _, none, rfl⟩ "a") (by decide +kernel)

end Backbone.Cache.Memory
