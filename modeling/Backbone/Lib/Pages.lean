import Mathlib.Data.List.Nodup

/-!
# Pages of a list

A page of a list is the run of `limit` items behind the pages before it. Pages counted from one
partition the list. `window` is a page cut out at an offset of the caller's own, which need not be the
right one.
-/

namespace Backbone.Pages

variable {α : Type*} {items : List α} {limit : ℕ} {offset : ℕ}

/-- `limit` items from an offset on. -/
def window (items : List α) (offset limit : ℕ) : List α := (items.drop offset).take limit

/-- The items at positions `(page - 1) * limit .. page * limit`. -/
def slice (items : List α) (limit page : ℕ) : List α := window items ((page - 1) * limit) limit

theorem window_eq_nil_of_le (h : items.length ≤ offset) : window items offset limit = [] := by
  rw [window, List.drop_eq_nil_of_le h, List.take_nil]

theorem head?_window (hlimit : 0 < limit) : (window items offset limit).head? = items[offset]? := by
  rw [window, List.head?_take, if_neg (Nat.ne_of_gt hlimit), List.head?_drop]

/-- Where no item repeats, two windows show the same only past the end. -/
theorem window_eq_window_iff (hnodup : items.Nodup) {o o' : ℕ} (hlimit : 0 < limit) (hlt : o < o') :
    window items o limit = window items o' limit ↔ items.length ≤ o := by
  constructor
  · intro h
    by_contra hin
    have hin : o < items.length := Nat.lt_of_not_le hin
    have hhead : items[o]? = items[o']? := by
      rw [← head?_window hlimit, h, head?_window hlimit]
    exact Nat.ne_of_lt hlt ((List.getElem?_inj hin hnodup).mp hhead)
  · intro hend
    rw [window_eq_nil_of_le hend, window_eq_nil_of_le (Nat.le_trans hend (Nat.le_of_lt hlt))]

/-- The first pages, one after the other, are the first items. -/
theorem flatMap_slice (items : List α) (limit n : ℕ) :
    (List.range n).flatMap (fun k => slice items limit (k + 1)) = items.take (n * limit) := by
  induction n with
  | zero => simp
  | succ n ih =>
    rw [List.range_succ, List.flatMap_append, ih, Nat.succ_mul, List.take_add]
    simp [slice, window]

theorem slice_subset_take {page : ℕ} (hpage : 1 ≤ page) {x : α} (h : x ∈ slice items limit page) :
    x ∈ items.take (page * limit) := by
  obtain ⟨n, rfl⟩ := Nat.exists_eq_add_of_le hpage
  rw [Nat.add_comm 1 n, Nat.succ_mul, List.take_add]
  apply List.mem_append_right
  simpa [slice, window, Nat.add_comm 1 n] using h

/-- Where no item repeats, two pages share none. -/
theorem disjoint_slice (hnodup : items.Nodup) {p q : ℕ} (hp : 1 ≤ p) (hlt : p < q) :
    (slice items limit p).Disjoint (slice items limit q) := by
  intro x hxp hxq
  have hle : p * limit ≤ (q - 1) * limit := Nat.mul_le_mul_right limit (by omega)
  exact List.disjoint_take_drop hnodup hle (slice_subset_take hp hxp) (List.mem_of_mem_take hxq)

end Backbone.Pages
