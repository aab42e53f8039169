import Mathlib.Data.List.Nodup

/-!
# Names that are taken over

A relation says who has which name. Whoever is given a name drops the one it had, and takes the new one
from those who have it. After a list of gifts, one who was given nothing has kept its name when nobody
was given it; and all who were given something have a name exactly when no name was given twice.
-/

namespace Backbone.Names

variable {α β : Type*} {N : α → β → Prop} {N' : α → β → Prop} {l : List (α × β)}

/-- Who has which name when `c.1` is given the name `c.2`. -/
def give (N : α → β → Prop) (c : α × β) : α → β → Prop :=
  fun x n => (x = c.1 ∧ n = c.2) ∨ (x ≠ c.1 ∧ N x n ∧ n ≠ c.2)

theorem give_congr (h : ∀ x n, N x n ↔ N' x n) (c : α × β) (x : α) (n : β) :
    give N c x n ↔ give N' c x n := by
  rw [give, give, h]

theorem foldl_give_congr (h : ∀ x n, N x n ↔ N' x n) (l : List (α × β)) (x : α)
    (n : β) : l.foldl give N x n ↔ l.foldl give N' x n := by
  have : N = N' := by
    funext x n
    exact propext (h x n)
  rw [this]

/-- One who is given nothing keeps the name it has when nobody is given it. -/
theorem foldl_give_of_notMem {x : α} {n : β} (hx : x ∉ l.map Prod.fst) :
    l.foldl give N x n ↔ N x n ∧ n ∉ l.map Prod.snd := by
  induction l generalizing N with
  | nil => simp
  | cons c l ih =>
    rw [List.map_cons, List.mem_cons, not_or] at hx
    rw [List.foldl_cons, ih hx.2, give, List.map_cons, List.mem_cons, not_or]
    constructor
    · rintro ⟨⟨heq, -⟩ | ⟨-, hN, hne⟩, hn⟩
      · exact absurd heq hx.1
      · exact ⟨hN, hne, hn⟩
    · rintro ⟨hN, hne, hn⟩
      exact ⟨.inr ⟨hx.1, hN, hne⟩, hn⟩

/-- All who are given a name have one when no name is given twice. -/
theorem forall_named_iff (hids : (l.map Prod.fst).Nodup) :
    (∀ x ∈ l.map Prod.fst, ∃ n, l.foldl give N x n) ↔ (l.map Prod.snd).Nodup := by
  induction l generalizing N with
  | nil => simp
  | cons c l ih =>
    rw [List.map_cons, List.nodup_cons] at hids
    rw [List.map_cons, List.forall_mem_cons, List.map_cons, List.nodup_cons]
    refine and_congr ?_ (ih hids.2)
    -- The first one keeps its name when it is not given again.
    rw [List.foldl_cons]
    simp only [foldl_give_of_notMem hids.1]
    constructor
    · rintro ⟨n, ⟨-, rfl⟩ | ⟨hne, -⟩, hn⟩
      · exact hn
      · exact absurd rfl hne
    · exact fun hn => ⟨c.2, .inl ⟨rfl, rfl⟩, hn⟩

end Backbone.Names
