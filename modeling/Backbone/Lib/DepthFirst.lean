import Mathlib.Data.Finset.Card

/-!
# Depth-first topological sort

A graph is given by the successors of each vertex, which are to come before it. `visit` walks it with a
set of finished vertices, a set of those on the current path, and the list of finished vertices in the
order in which they were finished. It stops at a vertex that is met again on the path.

The recursion is on fuel; `visit_ends` says how much is enough on a finite graph. An order is sound, a
stop has found a cycle, and a graph that could be ordered has none.
-/

namespace Backbone.DepthFirst

open Relation (TransGen)

variable {α : Type*}

/-- The state of a search. -/
structure Search (α : Type*) where
  visited : Finset α
  inProgress : Finset α
  result : List α

/-- The search before the first vertex. -/
def Search.start : Search α := ⟨∅, ∅, []⟩

/-- What a step of the search comes to: out of fuel, stopped at a vertex, or done. -/
abbrev Outcome (α : Type*) := Option (Except α (Search α))

/-- Visit one vertex after the other. -/
def visitAll (visit : α → Search α → Outcome α) : List α → Search α → Outcome α
  | [], s => some (.ok s)
  | x :: xs, s =>
    match visit x s with
    | some (.ok s) => visitAll visit xs s
    | some (.error v) => some (.error v)
    | none => none

variable (deps : α → List α)

/-- Visit a vertex: its successors first. -/
def visit [DecidableEq α] : ℕ → α → Search α → Outcome α
  | 0, _, _ => none
  | fuel + 1, x, s =>
    if x ∈ s.visited then some (.ok s)
    else if x ∈ s.inProgress then some (.error x)
    else
      match visitAll (visit fuel) (deps x) { s with inProgress := insert x s.inProgress } with
      | some (.ok s) =>
        some (.ok ⟨insert x s.visited, s.inProgress.erase x, s.result ++ [x]⟩)
      | some (.error v) => some (.error v)
      | none => none

/-- `y` is to come before `x`. -/
def Edge (x y : α) : Prop := y ∈ deps x

/-- No vertex is to come before itself. -/
def Acyclic : Prop := ∀ x, ¬ TransGen (Edge deps) x x

/-- Every vertex is behind its successors. -/
def Ordered (l : List α) : Prop := ∀ pre x post, l = pre ++ x :: post → ∀ y ∈ deps x, y ∈ pre

/-- What holds of a search through the vertices `V`. -/
structure Search.Sound (V : Finset α) (s : Search α) : Prop where
  visited_iff : ∀ x, x ∈ s.visited ↔ x ∈ s.result
  nodup : s.result.Nodup
  ordered : Ordered deps s.result
  inside : ∀ x ∈ s.result, x ∈ V
  apart : ∀ x ∈ s.inProgress, x ∉ s.visited

variable {deps} {V : Finset α} {s s' : Search α} {x : α} {xs : List α} {fuel : ℕ}
  {f : α → Search α → Outcome α} {l : List α}

theorem sound_start : (Search.start : Search α).Sound deps V where
  visited_iff y := by simp [Search.start]
  nodup := List.nodup_nil
  ordered pre y post h := by simp [Search.start] at h
  inside y h := by simp [Search.start] at h
  apart y h := by simp [Search.start] at h

theorem Search.Sound.enter [DecidableEq α] (h : s.Sound deps V) (hx : x ∉ s.visited) :
    Search.Sound deps V { s with inProgress := insert x s.inProgress } where
  visited_iff := h.visited_iff
  nodup := h.nodup
  ordered := h.ordered
  inside := h.inside
  apart y hy := by
    rcases Finset.mem_insert.mp hy with rfl | hy
    · exact hx
    · exact h.apart y hy

theorem Ordered.snoc (h : Ordered deps l) (hx : ∀ y ∈ deps x, y ∈ l) : Ordered deps (l ++ [x]) := by
  intro pre z post heq y hy
  rcases List.append_eq_append_iff.mp heq with ⟨mid, rfl, htail⟩ | ⟨mid, rfl, htail⟩
  · -- The vertex is the new one.
    cases mid with
    | nil =>
      obtain ⟨rfl, -⟩ := List.cons.inj htail
      simpa using hx y hy
    | cons w ws => simp at htail
  · cases mid with
    | nil =>
      obtain ⟨rfl, -⟩ := List.cons.inj htail
      simpa using hx y hy
    | cons w ws =>
      obtain ⟨rfl, -⟩ := List.cons.inj htail
      exact h pre z ws rfl y hy

/-- A vertex is finished once its successors are. -/
theorem Search.Sound.finish [DecidableEq α] (h : s.Sound deps V) (hx : x ∈ s.inProgress) (hV : x ∈ V)
    (hdeps : ∀ y ∈ deps x, y ∈ s.visited) :
    Search.Sound deps V ⟨insert x s.visited, s.inProgress.erase x, s.result ++ [x]⟩ where
  visited_iff y := by
    rw [Finset.mem_insert, h.visited_iff, List.mem_append, List.mem_singleton, or_comm]
  nodup := by
    have hnew : x ∉ s.result := fun hmem => h.apart x hx ((h.visited_iff x).mpr hmem)
    exact List.nodup_append.mpr ⟨h.nodup, List.nodup_singleton x, by
      rintro y hy z hz rfl
      rw [List.mem_singleton] at hz
      exact hnew (hz ▸ hy)⟩
  ordered := h.ordered.snoc fun y hy => (h.visited_iff y).mp (hdeps y hy)
  inside y hy := by
    rcases List.mem_append.mp hy with hy | hy
    · exact h.inside y hy
    · rw [List.mem_singleton.mp hy]
      exact hV
  apart y hy := by
    obtain ⟨hne, hmem⟩ := Finset.mem_erase.mp hy
    rw [Finset.mem_insert, not_or]
    exact ⟨hne, h.apart y hmem⟩

/-! ## A search that comes back -/

/-- The path is as it was, and what was finished still is. -/
structure Search.Returns (s s' : Search α) : Prop where
  inProgress : s'.inProgress = s.inProgress
  visited : s.visited ⊆ s'.visited

theorem Search.Returns.trans {t : Search α} (h : s.Returns s') (h' : s'.Returns t) :
    s.Returns t where
  inProgress := h'.inProgress.trans h.inProgress
  visited := h.visited.trans h'.visited

theorem visitAll_returns (hf : ∀ x s s', f x s = some (.ok s') → s.Returns s') :
    ∀ {xs : List α} {s s' : Search α}, visitAll f xs s = some (.ok s') → s.Returns s' := by
  intro xs
  induction xs with
  | nil =>
    intro s s' h
    cases h
    exact ⟨rfl, Finset.Subset.refl _⟩
  | cons x xs ih =>
    intro s s' h
    unfold visitAll at h
    split at h
    · rename_i t hx
      exact (hf x s t hx).trans (ih h)
    · cases h
    · cases h

theorem visit_returns [DecidableEq α] : ∀ {fuel : ℕ} {x : α} {s s' : Search α},
    visit deps fuel x s = some (.ok s') → s.Returns s' := by
  intro fuel
  induction fuel with
  | zero =>
    intro x s s' h
    cases h
  | succ fuel ih =>
    intro x s s' h
    unfold visit at h
    split at h
    · cases h
      exact ⟨rfl, Finset.Subset.refl _⟩
    · split at h
      · cases h
      · rename_i hfree
        split at h
        · rename_i t ht
          cases h
          have hreturns := visitAll_returns (fun _ _ _ h => ih h) ht
          refine ⟨?_, hreturns.visited.trans (Finset.subset_insert _ _)⟩
          change t.inProgress.erase x = s.inProgress
          rw [hreturns.inProgress, Finset.erase_insert hfree]
        · cases h
        · cases h

theorem visitAll_sound (hf : ∀ x s s', f x s = some (.ok s') → x ∈ V → s.Sound deps V →
      s.Returns s' ∧ s'.Sound deps V ∧ x ∈ s'.visited) :
    ∀ {xs : List α} {s s' : Search α}, visitAll f xs s = some (.ok s') → (∀ x ∈ xs, x ∈ V) →
      s.Sound deps V → s'.Sound deps V ∧ s.visited ⊆ s'.visited ∧ ∀ x ∈ xs, x ∈ s'.visited := by
  intro xs
  induction xs with
  | nil =>
    intro s s' h _ hs
    cases h
    exact ⟨hs, Finset.Subset.refl _, by simp⟩
  | cons x xs ih =>
    intro s s' h hV hs
    unfold visitAll at h
    split at h
    · rename_i t hx
      obtain ⟨hreturns, ht, hmem⟩ := hf x s t hx (hV x List.mem_cons_self) hs
      obtain ⟨hs', hsub, hall⟩ := ih h (fun y hy => hV y (List.mem_cons_of_mem _ hy)) ht
      refine ⟨hs', hreturns.visited.trans hsub, ?_⟩
      intro y hy
      rcases List.mem_cons.mp hy with rfl | hy
      · exact hsub hmem
      · exact hall y hy
    · cases h
    · cases h

/-- A visit that comes back has finished its vertex. -/
theorem visit_sound [DecidableEq α] (hV : ∀ x ∈ V, ∀ y ∈ deps x, y ∈ V) :
    ∀ {fuel : ℕ} {x : α} {s s' : Search α}, visit deps fuel x s = some (.ok s') → x ∈ V →
      s.Sound deps V → s'.Sound deps V ∧ x ∈ s'.visited := by
  intro fuel
  induction fuel with
  | zero =>
    intro x s s' h
    cases h
  | succ fuel ih =>
    intro x s s' h hx hs
    unfold visit at h
    split at h
    · rename_i hdone
      cases h
      exact ⟨hs, hdone⟩
    · rename_i hnew
      split at h
      · cases h
      · split at h
        · rename_i t ht
          cases h
          obtain ⟨hsound, -, hdeps⟩ := visitAll_sound
            (fun y s s' h hy hs => ⟨visit_returns h, ih h hy hs⟩) ht (hV x hx) (hs.enter hnew)
          have hpath : x ∈ t.inProgress := by
            rw [(visitAll_returns (fun _ _ _ h => visit_returns h) ht).inProgress]
            exact Finset.mem_insert_self x _
          exact ⟨hsound.finish hpath hx hdeps, Finset.mem_insert_self x _⟩
        · cases h
        · cases h

/-! ## A search that stops -/

theorem visitAll_cycle {v : α}
    (hf : ∀ x s, f x s = some (.error v) → (∀ p ∈ s.inProgress, TransGen (Edge deps) p x) →
      TransGen (Edge deps) v v) (hreturns : ∀ x s s', f x s = some (.ok s') → s.Returns s') :
    ∀ {xs : List α} {s : Search α}, visitAll f xs s = some (.error v) →
      (∀ x ∈ xs, ∀ p ∈ s.inProgress, TransGen (Edge deps) p x) → TransGen (Edge deps) v v := by
  intro xs
  induction xs with
  | nil =>
    intro s h
    cases h
  | cons x xs ih =>
    intro s h hpath
    unfold visitAll at h
    split at h
    · rename_i t hx
      refine ih h fun y hy p hp => ?_
      rw [(hreturns x s t hx).inProgress] at hp
      exact hpath y (List.mem_cons_of_mem _ hy) p hp
    · rename_i w hx
      cases h
      exact hf x s hx (hpath x List.mem_cons_self)
    · cases h

/-- A vertex at which the search stops lies on a cycle. -/
theorem visit_cycle [DecidableEq α] {v : α} : ∀ {fuel : ℕ} {x : α} {s : Search α},
    visit deps fuel x s = some (.error v) → (∀ p ∈ s.inProgress, TransGen (Edge deps) p x) →
      TransGen (Edge deps) v v := by
  intro fuel
  induction fuel with
  | zero =>
    intro x s h
    cases h
  | succ fuel ih =>
    intro x s h hpath
    unfold visit at h
    split at h
    · cases h
    · split at h
      · rename_i hmem
        cases h
        exact hpath v hmem
      · split at h
        · cases h
        · rename_i w hstop
          cases h
          refine visitAll_cycle (fun y s h hp => ih h hp) (fun _ _ _ h => visit_returns h) hstop ?_
          intro y hy p hp
          rcases Finset.mem_insert.mp hp with rfl | hp
          · exact .single hy
          · exact (hpath p hp).tail hy
        · cases h

/-! ## The search ends -/

theorem visitAll_ends {P : Finset α} (hf : ∀ x s, s.inProgress = P → f x s ≠ none)
    (hreturns : ∀ x s s', f x s = some (.ok s') → s.Returns s') :
    ∀ {xs : List α} {s : Search α}, s.inProgress = P → visitAll f xs s ≠ none := by
  intro xs
  induction xs with
  | nil =>
    intro s _ h
    cases h
  | cons x xs ih =>
    intro s hs h
    unfold visitAll at h
    split at h
    · rename_i t hx
      exact ih ((hreturns x s t hx).inProgress.trans hs) h
    · cases h
    · rename_i hx
      exact hf x s hs hx

/-- Fuel for the vertices not on the path and one more is enough. -/
theorem visit_ends [DecidableEq α] (hV : ∀ x, x ∉ V → deps x = []) :
    ∀ {fuel : ℕ} {x : α} {s : Search α}, (V \ s.inProgress).card < fuel →
      visit deps fuel x s ≠ none := by
  intro fuel
  induction fuel with
  | zero =>
    intro x s hfuel
    exact absurd hfuel (Nat.not_lt_zero _)
  | succ fuel ih =>
    intro x s hfuel h
    unfold visit at h
    split at h
    · cases h
    · split at h
      · cases h
      · rename_i hfree
        split at h
        · cases h
        · cases h
        · rename_i hnone
          by_cases hx : x ∈ V
          · have hless : (V \ insert x s.inProgress).card < (V \ s.inProgress).card := by
              apply Finset.card_lt_card
              rw [Finset.sdiff_insert]
              exact Finset.erase_ssubset (Finset.mem_sdiff.mpr ⟨hx, hfree⟩)
            refine visitAll_ends (P := insert x s.inProgress) (fun y t ht => ih ?_)
              (fun _ _ _ h => visit_returns h) rfl hnone
            rw [ht]
            omega
          · rw [hV x hx] at hnone
            cases hnone

/-! ## The whole graph -/

/-- What is to come before a vertex, however indirectly, is before it in an order. -/
theorem Ordered.before (h : Ordered deps l) {y : α} (hpath : TransGen (Edge deps) x y) :
    ∀ {pre post : List α}, l = pre ++ x :: post → y ∈ pre := by
  induction hpath using TransGen.head_induction_on with
  | single hedge => exact fun hl => h _ _ _ hl _ hedge
  | head hedge _ ih =>
    intro pre post hl
    obtain ⟨pre', post', rfl⟩ := List.append_of_mem (h _ _ _ hl _ hedge)
    rw [List.append_assoc, List.cons_append] at hl
    exact List.mem_append_left _ (ih hl)

/-- A graph whose vertices can be ordered has no cycle. -/
theorem acyclic_of_ordered (h : Ordered deps l) (hnodup : l.Nodup) (hall : ∀ x, deps x ≠ [] → x ∈ l) :
    Acyclic deps := by
  intro x hcycle
  have hx : x ∈ l := by
    obtain ⟨y, hy, -⟩ := TransGen.head'_iff.mp hcycle
    exact hall x (List.ne_nil_of_mem hy)
  obtain ⟨pre, post, rfl⟩ := List.append_of_mem hx
  have hpre := h.before hcycle rfl
  exact (List.nodup_append.mp hnodup).2.2 x hpre x List.mem_cons_self rfl

/-- The search through all vertices ends; it comes back with all of them in order, or with a vertex on a
cycle. -/
theorem visitAll_start [DecidableEq α] (hV : ∀ x ∈ V, ∀ y ∈ deps x, y ∈ V)
    (hempty : ∀ x, x ∉ V → deps x = []) (hl : ∀ x, x ∈ l ↔ x ∈ V) :
    (∃ s, visitAll (visit deps (V.card + 1)) l .start = some (.ok s) ∧ s.result.Nodup ∧
      (∀ x, x ∈ s.result ↔ x ∈ V) ∧ Ordered deps s.result) ∨
    ∃ v, visitAll (visit deps (V.card + 1)) l .start = some (.error v) ∧
      TransGen (Edge deps) v v := by
  have hends : visitAll (visit deps (V.card + 1)) l .start ≠ none := by
    refine visitAll_ends (P := ∅) (fun x s hs => visit_ends hempty ?_)
      (fun _ _ _ h => visit_returns h) rfl
    rw [hs, Finset.sdiff_empty]
    exact Nat.lt_succ_self _
  cases hr : visitAll (visit deps (V.card + 1)) l .start with
  | none => exact absurd hr hends
  | some r =>
    cases r with
    | error v =>
      refine .inr ⟨v, rfl, visitAll_cycle (fun _ _ h hp => visit_cycle h hp)
        (fun _ _ _ h => visit_returns h) hr ?_⟩
      intro x _ p hp
      simp [Search.start] at hp
    | ok s =>
      obtain ⟨hs, -, hall⟩ := visitAll_sound
        (fun y s s' h hy hs => ⟨visit_returns h, visit_sound hV h hy hs⟩) hr
        (fun x hx => (hl x).mp hx) sound_start
      refine .inl ⟨s, rfl, hs.nodup, fun x => ⟨hs.inside x, fun hx => ?_⟩, hs.ordered⟩
      exact (hs.visited_iff x).mp (hall x ((hl x).mpr hx))

/-! ## Along an order

A set is built and taken down in the order of the graph.
-/

/-- Everything is in the set that is to come before one of its elements. -/
def Closed (deps : α → List α) (up : Finset α) : Prop := ∀ x ∈ up, ∀ y ∈ deps x, y ∈ up

variable {pre post : List α} {up : Finset α} [DecidableEq α]

/-- Along an order a closed set grows from the front. -/
theorem Ordered.closed_insert (h : Ordered deps (pre ++ x :: post))
    (hup : Closed deps up) (hpre : ∀ y ∈ pre, y ∈ up) : Closed deps (insert x up) := by
  intro z hz y hy
  rcases Finset.mem_insert.mp hz with rfl | hz
  · exact Finset.mem_insert_of_mem (hpre y (h pre z post rfl y hy))
  · exact Finset.mem_insert_of_mem (hup z hz y hy)

/-- Along an order a closed set shrinks from the back. -/
theorem Ordered.closed_erase (h : Ordered deps (pre ++ x :: post))
    (hnodup : (pre ++ x :: post).Nodup) (hup : Closed deps up)
    (hall : ∀ y ∈ up, y ∈ pre ++ x :: post) (hpost : ∀ y ∈ post, y ∉ up) :
    Closed deps (up.erase x) := by
  intro z hz y hy
  obtain ⟨hne, hzup⟩ := Finset.mem_erase.mp hz
  refine Finset.mem_erase.mpr ⟨?_, hup z hzup y hy⟩
  rintro rfl
  -- what is left is in front of the element, and so is what is to come before it
  have hleft : z ∉ post := fun hmem => hpost z hmem hzup
  have hfront : z ∈ pre := by simpa [hne, hleft] using hall z hzup
  obtain ⟨a, b, rfl⟩ := List.append_of_mem hfront
  have hbefore : y ∈ a := h a z (b ++ y :: post) (by simp) y hy
  exact (List.nodup_append.mp hnodup).2.2 y (by simp [hbefore]) y (by simp) rfl

end Backbone.DepthFirst
