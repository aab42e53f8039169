import Mathlib.Data.List.Nodup

/-!
# Rounds that call their members

Parties open rounds one after another. A round is given the list of those it calls once, and calls
them in their turn; meanwhile its party may open other rounds, and comes back to it when they are
closed. So each party has a stack of rounds, the one it works on in front.

Who is due in a round is said when it opens. When the list has each of them once, each of them is
called once: not more often at any time, and as often as that when the round is closed. -/

namespace Backbone.Rounds

variable {ι α β : Type}

/-- A round on a party's stack: its number, and whom it has still to call, once it knows. -/
abbrev Job (α : Type) := ℕ × Option (List α)

/-- The rounds that were opened, the calls in their order, and the stacks. -/
structure State (ι α β : Type) where
  begun : List β
  calls : List (ℕ × α)
  jobs : ι → List (Job α)

/-- Some party works on the round. -/
def AtWork (s : State ι α β) (n : ℕ) : Prop := ∃ i, ∃ job ∈ s.jobs i, job.1 = n

/-- What a party does to the rounds and to its own stack. -/
inductive Shift (due : β → α → Prop) [DecidableEq α] (begun : List β) (calls : List (ℕ × α)) :
    List (Job α) → List β → List (ℕ × α) → List (Job α) → Prop where
  | stay (js : List (Job α)) : Shift due begun calls js begun calls js
  | open_ (b : β) (js : List (Job α)) :
    Shift due begun calls js (begun ++ [b]) calls ((begun.length, none) :: js)
  /-- The round is given a list that has those who are due once. -/
  | find (n : ℕ) (left : List α) (js : List (Job α))
    (h : ∀ b ∈ begun[n]?, ∀ a, due b a → left.count a = 1) :
    Shift due begun calls ((n, none) :: js) begun calls ((n, some left) :: js)
  | call (n : ℕ) (a : α) (left : List α) (js : List (Job α)) :
    Shift due begun calls ((n, some (a :: left)) :: js) begun (calls ++ [(n, a)])
      ((n, some left) :: js)
  | close (n : ℕ) (js : List (Job α)) : Shift due begun calls ((n, some []) :: js) begun calls js

variable {s s' : State ι α β}

section Stacks

variable {i : ι} {n : ℕ} {x y : Option (List α)} {js : List (Job α)}

theorem atWork_front (hi : s.jobs i = (n, x) :: js) : AtWork s n :=
  ⟨i, (n, x), hi ▸ List.mem_cons_self, rfl⟩

variable (hi : s.jobs i = (n, x) :: js) (hother : ∀ j, j ≠ i → s'.jobs j = s.jobs j)
  (hi' : s'.jobs i = (n, y) :: js)
include hi hi' hother

theorem numbers_front (j : ι) : (s'.jobs j).map Prod.fst = (s.jobs j).map Prod.fst := by
  by_cases hji : j = i
  · subst hji
    rw [hi, hi']
    rfl
  · rw [hother j hji]

theorem atWork_iff_front (m : ℕ) : AtWork s' m ↔ AtWork s m := by
  have hnumber : ∀ (t : State ι α β) j, (∃ job ∈ t.jobs j, job.1 = m) ↔
      m ∈ (t.jobs j).map Prod.fst := fun t j => by simp
  unfold AtWork
  exact exists_congr fun j => by
    rw [hnumber, hnumber, numbers_front hi hother hi' j]

end Stacks

/-! ## The account -/

variable [DecidableEq α] {due : β → α → Prop} (calls : List (ℕ × α))

/-- Each round is on one stack at most, and those who are due in it have been called or will be. -/
structure Ledger (due : β → α → Prop) (s : State ι α β) : Prop where
  below : ∀ i, ∀ job ∈ s.jobs i, job.1 < s.begun.length
  logged : ∀ c ∈ s.calls, c.1 < s.begun.length
  nodup : ∀ i, ((s.jobs i).map Prod.fst).Nodup
  apart : ∀ i j, i ≠ j → ∀ job ∈ s.jobs i, ∀ job' ∈ s.jobs j, job.1 ≠ job'.1
  early : ∀ i n, (n, none) ∈ s.jobs i → ∀ a, s.calls.count (n, a) = 0
  left : ∀ i n l, (n, some l) ∈ s.jobs i → ∀ b ∈ s.begun[n]?, ∀ a, due b a →
    s.calls.count (n, a) + l.count a = 1
  closed : ∀ n, ¬ AtWork s n → ∀ b ∈ s.begun[n]?, ∀ a, due b a → s.calls.count (n, a) = 1

theorem ledger_new : Ledger due (⟨[], [], fun _ => []⟩ : State ι α β) where
  below i job hjob := by cases hjob
  logged c hc := by cases hc
  nodup i := List.nodup_nil
  apart i j _ job hjob := by cases hjob
  early i n hjob := by cases hjob
  left i n l hjob := by cases hjob
  closed n _ b hb := by cases hb

theorem count_snoc_self (n : ℕ) (a b : α) :
    (calls ++ [(n, a)]).count (n, b) = calls.count (n, b) + [a].count b := by
  rw [List.count_append]
  by_cases hab : a = b
  · subst hab
    simp
  · have hpair : ((n, a) : ℕ × α) ≠ (n, b) := fun h => hab (Prod.mk.inj h).2
    simp [hab, hpair]

theorem count_snoc_of_ne {n m : ℕ} (hne : m ≠ n) (a b : α) :
    (calls ++ [(n, a)]).count (m, b) = calls.count (m, b) := by
  have hpair : ((n, a) : ℕ × α) ≠ (m, b) := fun h => hne (Prod.mk.inj h).1.symm
  rw [List.count_append, List.count_singleton]
  simp [hpair]

namespace Ledger

/-- Nobody who is due is called twice. -/
theorem atMostOnce (h : Ledger due s) {n : ℕ} {b : β} (hb : b ∈ s.begun[n]?) {a : α}
    (ha : due b a) : s.calls.count (n, a) ≤ 1 := by
  by_cases hwork : AtWork s n
  · obtain ⟨i, ⟨m, l⟩, hjob, rfl⟩ := hwork
    cases l with
    | none =>
      rw [h.early i m hjob a]
      exact Nat.zero_le 1
    | some l =>
      rw [← h.left i m l hjob b hb a ha]
      exact Nat.le_add_right _ _
  · exact Nat.le_of_eq (h.closed n hwork b hb a ha)

section Front

variable {i : ι} {n : ℕ} {x y : Option (List α)} {js : List (Job α)}
  (hi : s.jobs i = (n, x) :: js) (hother : ∀ j, j ≠ i → s'.jobs j = s.jobs j) {job : Job α}

include hi in
/-- The round in front is on no other place of a stack. -/
theorem ne_front (h : Ledger due s) {j : ι} (hjob : job ∈ s.jobs j)
    (hne : j = i → job ∈ js) : job.1 ≠ n := by
  by_cases hji : j = i
  · subst hji
    have hnodup := h.nodup j
    rw [hi, List.map_cons, List.nodup_cons] at hnodup
    intro heq
    have hmem : job.1 ∈ js.map Prod.fst := List.mem_map_of_mem (hne rfl)
    rw [heq] at hmem
    exact hnodup.1 hmem
  · exact h.apart j i hji job hjob (n, x) (hi ▸ List.mem_cons_self)

variable (hi' : s'.jobs i = (n, y) :: js)
include hi hi' hother

/-- A job of the next state is the one in front, or was there before and is of another round. -/
theorem mem_front (h : Ledger due s) {j : ι} (hjob : job ∈ s'.jobs j) :
    j = i ∧ job = (n, y) ∨ job ∈ s.jobs j ∧ job.1 ≠ n := by
  by_cases hji : j = i
  · subst hji
    rw [hi'] at hjob
    rcases List.mem_cons.mp hjob with rfl | hjob
    · exact .inl ⟨rfl, rfl⟩
    · have hmem : job ∈ s.jobs j := hi ▸ List.mem_cons_of_mem _ hjob
      exact .inr ⟨hmem, h.ne_front hi hmem fun _ => hjob⟩
  · rw [hother j hji] at hjob
    exact .inr ⟨hjob, h.ne_front hi hjob fun heq => absurd heq hji⟩

/-- The party works on the round in front of its stack, and on no other one. -/
theorem front (h : Ledger due s) (hbegun : s'.begun = s.begun)
    (hlogged : ∀ c ∈ s'.calls, c ∈ s.calls ∨ c.1 = n)
    (hcalls : ∀ m, m ≠ n → ∀ a, s'.calls.count (m, a) = s.calls.count (m, a))
    (hearly : y = none → ∀ a, s'.calls.count (n, a) = 0)
    (hleft : ∀ l, y = some l → ∀ b ∈ s.begun[n]?, ∀ a, due b a →
      s'.calls.count (n, a) + l.count a = 1) : Ledger due s' := by
  have hwork := atWork_iff_front hi hother hi'
  have hlt : n < s.begun.length := h.below i (n, x) (hi ▸ List.mem_cons_self)
  refine ⟨?_, ?_, ?_, ?_, ?_, ?_, ?_⟩
  · intro j job hjob
    rw [hbegun]
    rcases mem_front hi hother hi' h hjob with ⟨rfl, rfl⟩ | ⟨hold, -⟩
    · exact hlt
    · exact h.below j job hold
  · intro c hc
    rw [hbegun]
    rcases hlogged c hc with hold | rfl
    · exact h.logged c hold
    · exact hlt
  · intro j
    rw [numbers_front hi hother hi']
    exact h.nodup j
  · intro j k hjk job hjob job' hjob'
    rcases mem_front hi hother hi' h hjob with ⟨rfl, rfl⟩ | ⟨hold, hne⟩
    · rcases mem_front hi hother hi' h hjob' with ⟨rfl, -⟩ | ⟨-, hne'⟩
      · exact absurd rfl hjk
      · exact hne'.symm
    · rcases mem_front hi hother hi' h hjob' with ⟨rfl, rfl⟩ | ⟨hold', -⟩
      · exact hne
      · exact h.apart j k hjk job hold job' hold'
  · intro j m hjob a
    rcases mem_front hi hother hi' h hjob with ⟨-, heq⟩ | ⟨hold, hne⟩
    · obtain ⟨rfl, hy⟩ := Prod.mk.inj heq
      exact hearly hy.symm a
    · rw [hcalls m hne]
      exact h.early j m hold a
  · intro j m l hjob b hb a ha
    rw [hbegun] at hb
    rcases mem_front hi hother hi' h hjob with ⟨-, heq⟩ | ⟨hold, hne⟩
    · obtain ⟨rfl, hy⟩ := Prod.mk.inj heq
      exact hleft l hy.symm b hb a ha
    · rw [hcalls m hne]
      exact h.left j m l hold b hb a ha
  · intro m hm b hb a ha
    rw [hwork] at hm
    rw [hbegun] at hb
    have hne : m ≠ n := by
      rintro rfl
      exact hm (atWork_front hi)
    rw [hcalls m hne]
    exact h.closed m hm b hb a ha

end Front

section Steps

variable {i : ι} {js : List (Job α)} (hother : ∀ j, j ≠ i → s'.jobs j = s.jobs j)
include hother

theorem opened (h : Ledger due s) {b : β} (hbegun : s'.begun = s.begun ++ [b])
    (hcalls : s'.calls = s.calls) (hi : s'.jobs i = (s.begun.length, none) :: s.jobs i) :
    Ledger due s' := by
  have hmem {j : ι} {job : Job α} (hjob : job ∈ s'.jobs j) :
      j = i ∧ job = (s.begun.length, none) ∨ job ∈ s.jobs j ∧ job.1 < s.begun.length := by
    by_cases hji : j = i
    · subst hji
      rw [hi] at hjob
      rcases List.mem_cons.mp hjob with rfl | hjob
      · exact .inl ⟨rfl, rfl⟩
      · exact .inr ⟨hjob, h.below j job hjob⟩
    · rw [hother j hji] at hjob
      exact .inr ⟨hjob, h.below j job hjob⟩
  have hfresh : ∀ a, s.calls.count (s.begun.length, a) = 0 := by
    intro a
    refine List.count_eq_zero.mpr fun hc => ?_
    exact absurd (h.logged _ hc) (Nat.lt_irrefl _)
  have hold {n : ℕ} (hn : n < s.begun.length) : s'.begun[n]? = s.begun[n]? := by
    rw [hbegun, List.getElem?_append_left hn]
  refine ⟨?_, ?_, ?_, ?_, ?_, ?_, ?_⟩
  · intro j job hjob
    rw [hbegun, List.length_append, List.length_singleton]
    rcases hmem hjob with ⟨-, rfl⟩ | ⟨-, hlt⟩
    · exact Nat.lt_succ_self _
    · exact Nat.lt_succ_of_lt hlt
  · intro c hc
    rw [hcalls] at hc
    rw [hbegun, List.length_append, List.length_singleton]
    exact Nat.lt_succ_of_lt (h.logged c hc)
  · intro j
    by_cases hji : j = i
    · subst hji
      rw [hi, List.map_cons, List.nodup_cons]
      refine ⟨fun hmem => ?_, h.nodup j⟩
      obtain ⟨job, hjob, heq⟩ := List.mem_map.mp hmem
      exact absurd (h.below j job hjob) (by rw [heq]; exact Nat.lt_irrefl _)
    · rw [hother j hji]
      exact h.nodup j
  · intro j k hjk job hjob job' hjob'
    rcases hmem hjob with ⟨rfl, rfl⟩ | ⟨hjob, hlt⟩
    · rcases hmem hjob' with ⟨rfl, -⟩ | ⟨-, hlt'⟩
      · exact absurd rfl hjk
      · exact (Nat.ne_of_lt hlt').symm
    · rcases hmem hjob' with ⟨rfl, rfl⟩ | ⟨hjob', -⟩
      · exact Nat.ne_of_lt hlt
      · exact h.apart j k hjk job hjob job' hjob'
  · intro j n hjob a
    rw [hcalls]
    rcases hmem hjob with ⟨-, heq⟩ | ⟨hjob, -⟩
    · rw [(Prod.mk.inj heq).1]
      exact hfresh a
    · exact h.early j n hjob a
  · intro j n l hjob b' hb' a ha
    rw [hcalls]
    rcases hmem hjob with ⟨-, heq⟩ | ⟨hjob, hlt⟩
    · cases (Prod.mk.inj heq).2
    · rw [hold hlt] at hb'
      exact h.left j n l hjob b' hb' a ha
  · intro n hn b' hb' a ha
    have hne : n ≠ s.begun.length := by
      rintro rfl
      exact hn ⟨i, _, hi ▸ List.mem_cons_self, rfl⟩
    have hlt : n < s.begun.length := by
      obtain ⟨hlt, -⟩ := List.getElem?_eq_some_iff.mp hb'
      rw [hbegun, List.length_append, List.length_singleton] at hlt
      omega
    rw [hold hlt] at hb'
    rw [hcalls]
    refine h.closed n (fun ⟨j, job, hjob, heq⟩ => hn ⟨j, job, ?_, heq⟩) b' hb' a ha
    by_cases hji : j = i
    · subst hji
      exact hi ▸ List.mem_cons_of_mem _ hjob
    · exact hother j hji ▸ hjob

theorem close (h : Ledger due s) {n : ℕ} (hbegun : s'.begun = s.begun)
    (hcalls : s'.calls = s.calls) (hi : s.jobs i = (n, some []) :: js) (hi' : s'.jobs i = js) :
    Ledger due s' := by
  have hsub {j : ι} {job : Job α} (hjob : job ∈ s'.jobs j) : job ∈ s.jobs j := by
    by_cases hji : j = i
    · subst hji
      rw [hi]
      exact List.mem_cons_of_mem _ (hi' ▸ hjob)
    · exact hother j hji ▸ hjob
  refine ⟨?_, ?_, ?_, ?_, ?_, ?_, ?_⟩
  · intro j job hjob
    rw [hbegun]
    exact h.below j job (hsub hjob)
  · rw [hcalls, hbegun]
    exact h.logged
  · intro j
    by_cases hji : j = i
    · subst hji
      have hnodup := h.nodup j
      rw [hi, List.map_cons, List.nodup_cons] at hnodup
      rw [hi']
      exact hnodup.2
    · rw [hother j hji]
      exact h.nodup j
  · intro j k hjk job hjob job' hjob'
    exact h.apart j k hjk job (hsub hjob) job' (hsub hjob')
  · intro j m hjob
    rw [hcalls]
    exact h.early j m (hsub hjob)
  · intro j m l hjob
    rw [hcalls, hbegun]
    exact h.left j m l (hsub hjob)
  · intro m hm b hb a ha
    rw [hbegun] at hb
    rw [hcalls]
    by_cases hmn : m = n
    · -- the round that is closed has nobody left to call
      subst hmn
      have := h.left i m [] (hi ▸ List.mem_cons_self) b hb a ha
      simpa using this
    · refine h.closed m ?_ b hb a ha
      rintro ⟨j, job, hjob, rfl⟩
      refine hm ⟨j, job, ?_, rfl⟩
      by_cases hji : j = i
      · subst hji
        rw [hi] at hjob
        rcases List.mem_cons.mp hjob with rfl | hjob
        · exact absurd rfl hmn
        · rw [hi']
          exact hjob
      · rw [hother j hji]
        exact hjob

/-- The step rule: whatever a party does keeps the account. -/
theorem shift (h : Ledger due s)
    (hshift : Shift due s.begun s.calls (s.jobs i) s'.begun s'.calls (s'.jobs i)) :
    Ledger due s' := by
  generalize hjs : s.jobs i = js₀ at hshift
  generalize hjs' : s'.jobs i = js₁ at hshift
  generalize hbegun : s'.begun = begun' at hshift
  generalize hcalls : s'.calls = calls' at hshift
  cases hshift with
  | stay =>
    have hstate : s' = s := by
      obtain ⟨begun, calls, jobs⟩ := s
      obtain ⟨begun', calls', jobs'⟩ := s'
      obtain rfl : jobs' = jobs := by
        funext j
        by_cases hji : j = i
        · subst hji
          exact hjs'.trans hjs.symm
        · exact hother j hji
      subst hbegun hcalls
      rfl
    rw [hstate]
    exact h
  | open_ b => exact h.opened hother hbegun hcalls (hjs'.trans (by rw [hjs]))
  | find n left js hfound =>
    refine h.front hjs hother hjs' hbegun ?_ ?_ ?_ ?_
    · exact fun c hc => .inl (hcalls ▸ hc)
    · exact fun m _ a => by rw [hcalls]
    · exact fun hnone => by cases hnone
    · intro l hl b hb a ha
      cases hl
      rw [hcalls, h.early i n (hjs ▸ List.mem_cons_self) a, hfound b hb a ha]
  | call n a₀ left js =>
    refine h.front hjs hother hjs' hbegun ?_ ?_ ?_ ?_
    · intro c hc
      rw [hcalls] at hc
      rcases List.mem_append.mp hc with hc | hc
      · exact .inl hc
      · rw [List.mem_singleton.mp hc]
        exact .inr rfl
    · intro m hne a
      rw [hcalls, count_snoc_of_ne _ hne]
    · exact fun hnone => by cases hnone
    · intro l hl b hb a ha
      cases hl
      have hbefore := h.left i n (a₀ :: left) (hjs ▸ List.mem_cons_self) b hb a ha
      rw [List.count_cons] at hbefore
      rw [hcalls, count_snoc_self, List.count_singleton]
      omega
  | close n => exact h.close hother hbegun hcalls hjs hjs'

end Steps

end Ledger

end Backbone.Rounds
