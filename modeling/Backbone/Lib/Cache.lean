import Mathlib.Algebra.Group.Nat.Defs
import Mathlib.Algebra.Order.Group.Int
import Mathlib.Data.List.AList

/-!
# Caches that are swept

A cache maps keys to values. Putting a value replaces the one under its key, and a sweep drops the
values that a predicate rejects. The log of a cache is what was put, newest first, each item with
whether every sweep since has kept its value: the cache holds a key exactly when the newest item put
under it was kept.
-/

namespace Backbone.Cache

variable {κ ν α : Type*} [DecidableEq κ] {window : UInt64}

/-- Drop the values that are rejected. -/
def retain (keep : ν → Bool) (c : AList fun _ : κ => ν) : AList fun _ : κ => ν :=
  ⟨c.entries.filter fun e => keep e.2, c.nodupKeys.sublist List.filter_sublist⟩

section Retain

variable {keep : ν → Bool} {c : AList fun _ : κ => ν} {k : κ}

theorem lookup_retain : (retain keep c).lookup k = (c.lookup k).filter keep := by
  ext v
  rw [Option.filter_eq_some_iff, ← Option.mem_def, ← Option.mem_def, AList.mem_lookup_iff,
    AList.mem_lookup_iff]
  simp [retain]

end Retain

/-! ## Windows -/

/-- Less than a window of seconds ago; an instant is its nanoseconds. -/
def Within (window : UInt64) (now time : ℤ) : Prop := now - time < window.toNat * 1000000000

instance (window : UInt64) (now time : ℤ) : Decidable (Within window now time) :=
  inferInstanceAs (Decidable (_ < _))

theorem Within.mono {now later time : ℤ} (hle : now ≤ later)
    (h : Within window later time) : Within window now time := by
  unfold Within at h ⊢
  omega

/-- What `as i64` makes of a window. -/
theorem toInt_le_toNat (window : UInt64) : window.toBitVec.toInt ≤ window.toNat := by
  rw [BitVec.toInt_eq_toNat_cond]
  split
  · exact le_rfl
  · exact Int.sub_le_self _ (Int.natCast_nonneg _)

theorem toInt_of_lt (h : window.toNat < 2 ^ 63) : window.toBitVec.toInt = window.toNat := by
  rw [BitVec.toInt_eq_toNat_cond]
  exact if_pos ((Nat.mul_lt_mul_left (by decide)).mpr h)

/-! ## The log -/

/-- An item that was put, and whether every sweep since has kept its value. -/
structure Put (α : Type*) where
  item : α
  kept : Bool
deriving DecidableEq

abbrev Log (α : Type*) := List (Put α)

namespace Log

variable (key : α → κ) (value : α → ν)

def put (log : Log α) (a : α) : Log α := ⟨a, true⟩ :: log

def sweep (keep : ν → Bool) (log : Log α) : Log α :=
  log.map fun p => { p with kept := p.kept && keep (value p.item) }

/-- The newest item under a key. -/
def latest (log : Log α) (k : κ) : Option (Put α) := log.find? fun p => key p.item = k

variable {key value} {log : Log α} {a : α} {k : κ} {keep : ν → Bool} {p : Put α}

theorem latest_put :
    (log.put a).latest key k = if key a = k then some ⟨a, true⟩ else log.latest key k := by
  by_cases h : key a = k <;> simp [latest, put, h]

theorem latest_sweep :
    (log.sweep value keep).latest key k =
      (log.latest key k).map fun p => { p with kept := p.kept && keep (value p.item) } := by
  rw [latest, sweep, List.find?_map]
  rfl

theorem key_latest (h : log.latest key k = some p) : key p.item = k := by
  simpa using List.find?_some h

theorem mem_latest (h : log.latest key k = some p) : p ∈ log :=
  List.mem_of_find?_eq_some h

theorem exists_latest (hp : p ∈ log) (hk : key p.item = k) : ∃ p', log.latest key k = some p' := by
  rw [← Option.isSome_iff_exists, latest, List.find?_isSome]
  exact ⟨p, hp, decide_eq_true hk⟩

/-- A sweep leaves the items as they are. -/
@[simp] theorem map_item_sweep : (log.sweep value keep).map (·.item) = log.map (·.item) := by
  rw [sweep, List.map_map]
  rfl

/-- In a log whose items are related to the older ones, the newest item under a key is related to the
others under it. -/
theorem rel_latest (r : α → α → Prop) (hrefl : ∀ a, r a a)
    (hlog : (log.map (·.item)).Pairwise r) {q : Put α} (hp : log.latest key k = some p)
    (hq : q ∈ log) (hk : key q.item = k) : r p.item q.item := by
  induction log with
  | nil => cases hq
  | cons p' log ih =>
    obtain ⟨hhead, hrest⟩ := List.pairwise_cons.mp hlog
    by_cases hk' : key p'.item = k
    · have hp' : p = p' := by simpa [latest, hk'] using hp.symm
      subst hp'
      rcases List.mem_cons.mp hq with rfl | hq
      · exact hrefl _
      · exact hhead _ (List.mem_map_of_mem hq)
    · have hp' : Log.latest key log k = some p := by simpa [latest, hk'] using hp
      rcases List.mem_cons.mp hq with rfl | hq
      · exact absurd hk hk'
      · exact ih hrest hp' hq

/-- What the cache holds: under each key the value of the newest item, when it was kept. -/
def Accounts (key : α → κ) (value : α → ν) (log : Log α) (c : AList fun _ : κ => ν) : Prop :=
  ∀ k, c.lookup k = ((log.latest key k).filter (·.kept)).map fun p => value p.item

namespace Accounts

variable {c : AList fun _ : κ => ν}

theorem empty : Accounts key value ([] : Log α) ∅ := fun _ => rfl

section

variable (h : Accounts key value log c)
include h

theorem put (a : α) : Accounts key value (log.put a) (c.insert (key a) (value a)) := by
  intro k
  rw [latest_put]
  by_cases hk : key a = k
  · subst hk
    rw [if_pos rfl, AList.lookup_insert]
    rfl
  · rw [if_neg hk, AList.lookup_insert_ne (Ne.symm hk), h k]

theorem sweep (keep : ν → Bool) : Accounts key value (log.sweep value keep) (retain keep c) := by
  intro k
  rw [lookup_retain, h k, latest_sweep]
  rcases log.latest key k with _ | ⟨a, _ | _⟩
  · rfl
  · rfl
  · cases hkeep : keep (value a) <;> simp [Option.filter, hkeep]

theorem lookup_eq_some_iff {v : ν} :
    c.lookup k = some v ↔ ∃ p, log.latest key k = some p ∧ p.kept = true ∧ value p.item = v := by
  rw [h k]
  rcases log.latest key k with _ | ⟨a, _ | _⟩
  · simp
  · simp
  · simp [Option.filter]

/-- The cache holds no more keys than the log has items with values that it holds. -/
theorem length_le {f : ν → Bool} (hf : ∀ e ∈ c.entries, f e.2 = true) :
    c.entries.length ≤ (log.filter fun p => f (value p.item)).length := by
  have hsub : c.keys ⊆ (log.filter fun p => f (value p.item)).map fun p => key p.item := by
    intro k hk
    obtain ⟨e, he, rfl⟩ := List.mem_map.mp hk
    obtain ⟨p, hp, -, hv⟩ := h.lookup_eq_some_iff.mp (AList.mem_lookup_iff.mpr he)
    refine List.mem_map.mpr ⟨p, List.mem_filter.mpr ⟨mem_latest hp, ?_⟩, key_latest hp⟩
    rw [hv]
    exact hf e he
  have hle := (List.subperm_of_subset c.nodupKeys hsub).length_le
  simpa [AList.keys, List.keys] using hle

end

end Accounts

end Log

end Backbone.Cache
