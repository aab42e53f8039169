import Mathlib.Data.List.AList

/-!
# Tables

A table is the list of its rows, with a column that is unique. A transaction that updates rows in
place relates the table before to the table after row by row, `List.Forall₂`, and leaves the column
alone; an insert appends.
-/

namespace Backbone.Table

variable {α β κ : Type*} {R : α → β → Prop} {l : List α} {l' : List β} {f : α → κ} {a : α}

/-- A row of the table after an update in place comes from one before. -/
theorem exists_of_mem_right (h : List.Forall₂ R l l') {b : β} (hb : b ∈ l') : ∃ a ∈ l, R a b := by
  induction h with
  | nil => cases hb
  | @cons a b' l l' hab hrest ih =>
    rcases List.mem_cons.mp hb with rfl | hb
    · exact ⟨a, List.mem_cons_self, hab⟩
    · obtain ⟨a', ha', hr⟩ := ih hb
      exact ⟨a', List.mem_cons_of_mem _ ha', hr⟩

/-- A row of the table before an update in place is still there after it. -/
theorem exists_of_mem_left (h : List.Forall₂ R l l') (ha : a ∈ l) : ∃ b ∈ l', R a b :=
  exists_of_mem_right h.flip ha

/-- The last rows belong together. -/
theorem rel_getLast? (h : List.Forall₂ R l l') : Option.Rel R l.getLast? l'.getLast? := by
  have hreverse : List.Forall₂ R l.reverse l'.reverse := List.rel_reverse h
  rw [List.getLast?_eq_head?_reverse, List.getLast?_eq_head?_reverse]
  generalize l.reverse = m, l'.reverse = m' at hreverse
  cases hreverse with
  | nil => exact .none
  | cons hab _ => exact .some hab

/-- An update that leaves a column alone leaves the whole column alone. -/
theorem map_eq_of_forall₂ (f : α → κ) (g : β → κ) (h : List.Forall₂ (fun a b => g b = f a) l l') :
    l'.map g = l.map f := by
  induction h with
  | nil => rfl
  | cons hab _ ih => rw [List.map_cons, List.map_cons, hab, ih]

section

variable (h : (l.map f).Nodup) {a : α}
include h

/-- Two rows with the same key are the same row. -/
theorem eq_of_key {b : α} (ha : a ∈ l) (hb : b ∈ l) (hab : f a = f b) : a = b :=
  List.inj_on_of_nodup_map h ha hb hab

/-- A row is found under its key. -/
theorem find?_eq_some_of_mem [DecidableEq κ] (ha : a ∈ l) :
    l.find? (fun b => f b == f a) = some a := by
  cases hfind : l.find? (fun b => f b == f a) with
  | none =>
    have := List.find?_eq_none.mp hfind a ha
    simp at this
  | some b =>
    have hkey : f b = f a := by simpa using List.find?_some hfind
    rw [eq_of_key h (List.mem_of_find?_eq_some hfind) ha hkey]

/-- An insert under a fresh key keeps the keys unique. -/
theorem nodup_map_append (ha : ∀ b ∈ l, f b ≠ f a) : ((l ++ [a]).map f).Nodup := by
  rw [List.map_append, List.nodup_append]
  refine ⟨h, List.nodup_singleton _, ?_⟩
  rintro k hk k' hk' rfl
  obtain ⟨b, hb, hbk⟩ := List.mem_map.mp hk
  exact ha b hb (hbk.trans (List.mem_singleton.mp hk'))

/-- A statement `WHERE key IN (…)` touches as many rows as there are keys in its list exactly when no key
is listed twice and each names a row the statement may touch. -/
theorem length_filter_keys [DecidableEq κ] (keys : List κ) (p : α → Bool) :
    (l.filter fun a => keys.contains (f a) && p a).length = keys.length ↔
      keys.Nodup ∧ ∀ k ∈ keys, ∃ a ∈ l, f a = k ∧ p a := by
  have hmem : ∀ k, k ∈ (l.filter fun a => keys.contains (f a) && p a).map f ↔
      k ∈ keys ∧ ∃ a ∈ l, f a = k ∧ p a := by
    intro k
    simp only [List.mem_map, List.mem_filter, Bool.and_eq_true, List.contains_iff_mem]
    constructor
    · rintro ⟨a, ⟨ha, hk, hp⟩, rfl⟩
      exact ⟨hk, a, ha, rfl, hp⟩
    · rintro ⟨hk, a, ha, rfl, hp⟩
      exact ⟨a, ⟨ha, hk, hp⟩, rfl⟩
  have hnodup : ((l.filter fun a => keys.contains (f a) && p a).map f).Nodup :=
    h.sublist (List.filter_sublist.map f)
  have hsubperm := List.subperm_of_subset hnodup fun k hk => ((hmem k).mp hk).1
  rw [← List.length_map f]
  constructor
  · intro hlength
    have hperm := hsubperm.perm_of_length_le (Nat.le_of_eq hlength.symm)
    exact ⟨hperm.nodup_iff.mp hnodup, fun k hk => ((hmem k).mp (hperm.mem_iff.mpr hk)).2⟩
  · rintro ⟨hkeys, hall⟩
    apply Nat.le_antisymm hsubperm.length_le
    exact (List.subperm_of_subset hkeys fun k hk => (hmem k).mpr ⟨hk, hall k hk⟩).length_le

end

/-- What is looked up is an entry under the key. -/
theorem mem_of_lookup [BEq κ] [LawfulBEq κ] {l : List (κ × α)} {k : κ}
    (h : l.lookup k = some a) : (k, a) ∈ l := by
  obtain ⟨before, after, rfl, -⟩ := List.lookup_eq_some_iff.mp h
  exact List.mem_append_right before List.mem_cons_self

/-- What is stored under a key after an insert is what was inserted, or was there before. -/
theorem lookup_insert_cases [DecidableEq κ] {s : AList fun _ : κ => α} {k k' : κ} {a' : α}
    (h : (s.insert k a).lookup k' = some a') :
    k' = k ∧ a' = a ∨ k' ≠ k ∧ s.lookup k' = some a' := by
  by_cases hk : k' = k
  · subst hk
    exact .inl ⟨rfl, Option.some.inj (h.symm.trans (AList.lookup_insert s))⟩
  · exact .inr ⟨hk, (AList.lookup_insert_ne hk).symm.trans h⟩

end Backbone.Table
