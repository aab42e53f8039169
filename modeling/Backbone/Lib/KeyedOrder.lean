import Mathlib.Data.Set.Basic

/-!
# An order chosen by the pair

Elements of a linear order, some of which have a key in another one. Two elements with keys are compared
by their keys, and every other pair by the elements themselves. Each pair is in one order or the other,
so the comparison is total and its equality is an equivalence; but three elements may be in both, and
then it need not be transitive.

`Crossed` is the one way in which that fails: an element without a key between two that have keys, in
the order of the elements, and their keys the other way round.
-/

namespace Backbone.KeyedOrder

variable {α β : Type*} [LinearOrder α] [LinearOrder β] (key : α → Option β)

/-- By the keys, if both have one. -/
def keyedCompare (x y : α) : Ordering :=
  match key x, key y with
  | some v, some w => compare v w
  | _, _ => compare x y

variable {key} {y x : α} {z : α}

theorem keyedCompare_of_keys {v w : β} (hx : key x = some v) (hy : key y = some w) :
    keyedCompare key x y = compare v w := by
  rw [keyedCompare, hx, hy]

theorem keyedCompare_of_left (hx : key x = none) (y : α) : keyedCompare key x y = compare x y := by
  rw [keyedCompare, hx]

theorem keyedCompare_of_right (x : α) (hy : key y = none) : keyedCompare key x y = compare x y := by
  rw [keyedCompare, hy]
  cases key x <;> rfl

/-- Both elements have a key, or they are compared as they are. -/
theorem keyedCompare_cases (key : α → Option β) (x y : α) :
    (∃ v w, key x = some v ∧ key y = some w) ∨ keyedCompare key x y = compare x y := by
  cases hx : key x with
  | none => exact .inr (keyedCompare_of_left hx y)
  | some v =>
    cases hy : key y with
    | none => exact .inr (keyedCompare_of_right x hy)
    | some w => exact .inl ⟨v, w, rfl, rfl⟩

theorem keyedCompare_swap (x y : α) : (keyedCompare key x y).swap = keyedCompare key y x := by
  rcases keyedCompare_cases key x y with ⟨v, w, hx, hy⟩ | h
  · rw [keyedCompare_of_keys hx hy, keyedCompare_of_keys hy hx]
    exact Std.OrientedOrd.eq_swap.symm
  · rcases keyedCompare_cases key y x with ⟨v, w, hy, hx⟩ | h'
    · rw [keyedCompare_of_keys hx hy, keyedCompare_of_keys hy hx]
      exact Std.OrientedOrd.eq_swap.symm
    · rw [h, h']
      exact Std.OrientedOrd.eq_swap.symm

/-- Equal: the same element, or the same key. -/
theorem keyedCompare_eq_iff :
    keyedCompare key x y = .eq ↔ x = y ∨ ∃ v, key x = some v ∧ key y = some v := by
  rcases keyedCompare_cases key x y with ⟨v, w, hx, hy⟩ | h
  · rw [keyedCompare_of_keys hx hy, compare_eq_iff_eq]
    constructor
    · rintro rfl
      exact .inr ⟨v, hx, hy⟩
    · rintro (rfl | ⟨u, hx', hy'⟩)
      · exact Option.some.inj (hx.symm.trans hy)
      · exact (Option.some.inj (hx.symm.trans hx')).trans (Option.some.inj (hy'.symm.trans hy))
  · rw [h, compare_eq_iff_eq]
    constructor
    · exact .inl
    · rintro (rfl | ⟨u, hx, hy⟩)
      · rfl
      · rw [keyedCompare_of_keys hx hy] at h
        rw [← compare_eq_iff_eq, ← h, compare_eq_iff_eq]

theorem keyedCompare_eq_refl (x : α) : keyedCompare key x x = .eq :=
  keyedCompare_eq_iff.mpr (.inl rfl)

theorem keyedCompare_eq_symm (h : keyedCompare key x y = .eq) : keyedCompare key y x = .eq := by
  rw [← keyedCompare_swap, h]
  rfl

theorem keyedCompare_eq_trans (hxy : keyedCompare key x y = .eq)
    (hyz : keyedCompare key y z = .eq) : keyedCompare key x z = .eq := by
  rw [keyedCompare_eq_iff] at hxy hyz ⊢
  rcases hxy with rfl | ⟨v, hx, hy⟩
  · exact hyz
  · rcases hyz with rfl | ⟨w, hy', hz⟩
    · exact .inr ⟨v, hx, hy⟩
    · rw [hy] at hy'
      cases hy'
      exact .inr ⟨v, hx, hz⟩

/-! ## Where it is an order -/

variable (key)

/-- The comparison is an order on a set: its less-than is transitive and keeps to its equality. -/
structure OrderOn (S : Set α) : Prop where
  trans : ∀ x ∈ S, ∀ y ∈ S, ∀ z ∈ S, keyedCompare key x y = .lt → keyedCompare key y z = .lt →
    keyedCompare key x z = .lt
  congr : ∀ x ∈ S, ∀ y ∈ S, ∀ z ∈ S, keyedCompare key x y = .eq → keyedCompare key y z = .lt →
    keyedCompare key x z = .lt

/-- An element without a key between two with keys, and their keys the other way round or equal. -/
def Crossed (x z y : α) : Prop :=
  key z = none ∧ x < z ∧ z < y ∧ ∃ v w, key x = some v ∧ key y = some w ∧ w ≤ v

variable {key}

/-- Three elements in a row, the first below or equal to the second, and no crossing among them. -/
theorem lt_of_not_crossed (hxy : keyedCompare key x y ≠ .gt)
    (hyz : keyedCompare key y z = .lt) (hmid : ¬ Crossed key x y z) (hlast : ¬ Crossed key y z x)
    (hfirst : ¬ Crossed key z x y) : keyedCompare key x z = .lt := by
  cases hx : key x with
  | none =>
    rw [keyedCompare_of_left hx] at hxy ⊢
    rw [compare_le_iff_le] at hxy
    rw [compare_lt_iff_lt]
    rcases keyedCompare_cases key y z with ⟨v, w, hy, hz⟩ | h
    · rw [keyedCompare_of_keys hy hz, compare_lt_iff_lt] at hyz
      have hne : x ≠ y := by
        rintro rfl
        rw [hx] at hy
        cases hy
      have hne' : x ≠ z := by
        rintro rfl
        rw [hx] at hz
        cases hz
      rcases lt_or_gt_of_ne hne' with hlt | hgt
      · exact hlt
      · exact absurd ⟨hx, hgt, lt_of_le_of_ne hxy hne, w, v, hz, hy, hyz.le⟩ hfirst
    · rw [h, compare_lt_iff_lt] at hyz
      exact lt_of_le_of_lt hxy hyz
  | some u =>
    cases hz : key z with
    | none =>
      rw [keyedCompare_of_right y hz, compare_lt_iff_lt] at hyz
      rw [keyedCompare_of_right x hz, compare_lt_iff_lt]
      rcases keyedCompare_cases key x y with ⟨u', v, hx', hy⟩ | h
      · rw [keyedCompare_of_keys hx' hy, compare_le_iff_le] at hxy
        have hne : x ≠ z := by
          rintro rfl
          rw [hx] at hz
          cases hz
        rcases lt_or_gt_of_ne hne with hlt | hgt
        · exact hlt
        · exact absurd ⟨hz, hyz, hgt, v, u', hy, hx', hxy⟩ hlast
      · rw [h, compare_le_iff_le] at hxy
        exact lt_of_le_of_lt hxy hyz
    | some w =>
      rw [keyedCompare_of_keys hx hz, compare_lt_iff_lt]
      cases hy : key y with
      | some v =>
        rw [keyedCompare_of_keys hx hy, compare_le_iff_le] at hxy
        rw [keyedCompare_of_keys hy hz, compare_lt_iff_lt] at hyz
        exact lt_of_le_of_lt hxy hyz
      | none =>
        rw [keyedCompare_of_right x hy, compare_le_iff_le] at hxy
        rw [keyedCompare_of_left hy, compare_lt_iff_lt] at hyz
        have hne : x ≠ y := by
          rintro rfl
          rw [hx] at hy
          cases hy
        by_contra hle
        exact hmid ⟨hy, lt_of_le_of_ne hxy hne, hyz, u, w, hx, hz, not_lt.mp hle⟩

/-- A crossing is less than its middle, which is less than its end, and not less than its end. -/
theorem Crossed.not_trans (h : Crossed key x z y) :
    keyedCompare key x z = .lt ∧ keyedCompare key z y = .lt ∧ keyedCompare key x y ≠ .lt := by
  obtain ⟨hz, hxz, hzy, v, w, hx, hy, hle⟩ := h
  refine ⟨?_, ?_, ?_⟩
  · rw [keyedCompare_of_right x hz, compare_lt_iff_lt]
    exact hxz
  · rw [keyedCompare_of_left hz, compare_lt_iff_lt]
    exact hzy
  · rw [keyedCompare_of_keys hx hy, Ne, compare_lt_iff_lt]
    exact not_lt.mpr hle

/-- The comparison is an order on a set exactly when nothing of the set crosses. -/
theorem orderOn_iff {S : Set α} :
    OrderOn key S ↔ ∀ x ∈ S, ∀ z ∈ S, ∀ y ∈ S, ¬ Crossed key x z y := by
  constructor
  · intro h x hx z hz y hy hcrossed
    obtain ⟨hxz, hzy, hnot⟩ := hcrossed.not_trans
    exact hnot (h.trans x hx z hz y hy hxz hzy)
  · intro h
    constructor
    case trans =>
      intro x hx y hy z hz hxy hyz
      exact lt_of_not_crossed (by simp [hxy]) hyz (h x hx y hy z hz) (h y hy z hz x hx)
        (h z hz x hx y hy)
    case congr =>
      intro x hx y hy z hz hxy hyz
      exact lt_of_not_crossed (by simp [hxy]) hyz (h x hx y hy z hz) (h y hy z hz x hx)
        (h z hz x hx y hy)

end Backbone.KeyedOrder
