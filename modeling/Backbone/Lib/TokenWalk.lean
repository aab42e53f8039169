import Mathlib.Data.Finset.Card
import Backbone.Lib.Run

/-!
# Pages behind a token

A listing takes its items in whatever order they come, leaves out those that are not behind a token,
cuts the rest at a limit, and makes the last item of a cut page the next token. The walk follows the
tokens until a page is not cut.
-/

namespace Backbone.TokenWalk

open Machine

variable {α : Type*} [LinearOrder α] {limit : ℕ} {token : Option α}

/-- The items behind a token, at most as many as the limit. -/
def page (limit : ℕ) (token : Option α) (items : List α) : List α :=
  (items.filter fun x => token.all (· < x)).take limit

/-- What was listed so far. -/
structure Walk (α : Type*) where
  listed : List α
  token : Option α
  done : Bool

def Walk.start : Walk α := ⟨[], none, false⟩

/-- One more page, of the items in the order in which they come this time. -/
def step (limit : ℕ) (s : Walk α) (items : List α) : Walk α :=
  if s.done then s
  else if limit ≤ (page limit s.token items).length then
    ⟨s.listed ++ page limit s.token items, (page limit s.token items).getLast?, false⟩
  else ⟨s.listed ++ page limit s.token items, none, true⟩

/-- The next page lists nothing again, and if it is cut, its last item leaves nothing behind. -/
def Exact (limit : ℕ) (s : Walk α) (items : List α) : Prop :=
  s.done = false →
    (∀ x ∈ page limit s.token items, x ∉ s.listed) ∧
      (limit ≤ (page limit s.token items).length →
        ∀ b ∈ (page limit s.token items).getLast?, ∀ x ∈ items, x ≤ b →
          x ∈ s.listed ∨ x ∈ page limit s.token items)

section Step

variable {s : Walk α} {items : List α} {x : α}

theorem mem_page (h : x ∈ page limit token items) : x ∈ items ∧ token.all (· < x) = true := by
  simpa using List.mem_filter.mp (List.mem_of_mem_take h)

theorem nodup_page (h : items.Nodup) : (page limit token items).Nodup :=
  (h.filter _).sublist (List.take_sublist _ _)

/-- A page that is not cut has everything behind the token. -/
theorem mem_page_of_lt (h : (page limit token items).length < limit) (hx : x ∈ items)
    (htoken : token.all (· < x) = true) : x ∈ page limit token items := by
  have hall : page limit token items = items.filter fun x => token.all (· < x) := by
    apply List.take_of_length_le
    rw [page, List.length_take] at h
    omega
  rw [hall]
  exact List.mem_filter.mpr ⟨hx, htoken⟩

theorem exists_last (hlimit : 0 < limit) (hcut : limit ≤ (page limit token items).length) :
    ∃ b ∈ page limit token items, (page limit token items).getLast? = some b := by
  have hne : page limit token items ≠ [] := List.ne_nil_of_length_pos (hlimit.trans_le hcut)
  exact ⟨_, List.getLast_mem hne, List.getLast?_eq_some_getLast hne⟩

/-- What is in front of a token is in front of what is listed behind it. -/
theorem not_lt_of_front {b : α} (hb : b ∈ page limit token items) (hx : token.all (· < x) = false) :
    ¬ b < x := by
  cases token with
  | none => simp at hx
  | some t =>
    have htb : t < b := by simpa using (mem_page hb).2
    have htx : x ≤ t := by simpa using hx
    exact (htx.trans htb.le).not_gt

theorem step_of_done (h : s.done = true) : step limit s items = s := by
  rw [step, if_pos h]

theorem step_cut (h : s.done = false) (hcut : limit ≤ (page limit s.token items).length) :
    step limit s items =
      ⟨s.listed ++ page limit s.token items, (page limit s.token items).getLast?, false⟩ := by
  rw [step, if_neg (by simp [h]), if_pos hcut]

theorem step_last (h : s.done = false) (hcut : (page limit s.token items).length < limit) :
    step limit s items = ⟨s.listed ++ page limit s.token items, none, true⟩ := by
  rw [step, if_neg (by simp [h]), if_neg (Nat.not_le.mpr hcut)]

theorem listed_step (h : s.done = false) :
    (step limit s items).listed = s.listed ++ page limit s.token items := by
  by_cases hcut : limit ≤ (page limit s.token items).length
  · rw [step_cut h hcut]
  · rw [step_last h (Nat.not_le.mp hcut)]

/-- What is listed stays listed. -/
theorem prefix_step : s.listed <+: (step limit s items).listed := by
  by_cases h : s.done = true
  · rw [step_of_done h]
  · rw [listed_step (by simpa using h)]
    exact List.prefix_append _ _

end Step

section Runs

variable {s : Walk α} {names : List α} {calls : List (List α)} {items : List α}

theorem run_of_done (h : s.done = true) : run (step limit) s calls = s := by
  induction calls with
  | nil => rfl
  | cons items calls ih => rw [run_cons, step_of_done h, ih]

theorem prefix_run : s.listed <+: (run (step limit) s calls).listed := by
  induction calls generalizing s with
  | nil => exact List.prefix_rfl
  | cons items calls ih => exact prefix_step.trans ih

/-- Only items are listed. -/
theorem subset_run (hcalls : ∀ items ∈ calls, items.Perm names) (h : s.listed ⊆ names) :
    (run (step limit) s calls).listed ⊆ names := by
  have hstep (s : Walk α) (items : List α) (hs : s.listed ⊆ names) (hitems : items.Perm names) :
      (step limit s items).listed ⊆ names := by
    by_cases hdone : s.done = true
    · rw [step_of_done hdone]
      exact hs
    · rw [listed_step (by simpa using hdone)]
      exact List.append_subset.mpr ⟨hs, fun x hx => hitems.subset (mem_page hx).1⟩
  exact invariant_along (step limit) (I := fun s => s.listed ⊆ names)
    (C := fun _ items => items.Perm names) hstep h (along_of_forall_mem _ hcalls)

/-- What is in front of the token and not listed yet is never listed. -/
theorem not_mem_run {x : α} (hlimit : 0 < limit) (hx : x ∉ s.listed)
    (htoken : s.token.all (· < x) = false) :
    x ∉ (run (step limit) s calls).listed := by
  induction calls generalizing s with
  | nil => exact hx
  | cons items calls ih =>
    rw [run_cons]
    by_cases hdone : s.done = true
    · rw [step_of_done hdone]
      exact ih hx htoken
    · have hdone : s.done = false := by simpa using hdone
      have hpage : x ∉ page limit s.token items := by
        intro hmem
        rw [(mem_page hmem).2] at htoken
        cases htoken
      have hlisted : x ∉ (step limit s items).listed := by
        rw [listed_step hdone]
        exact fun hmem => (List.mem_append.mp hmem).elim hx hpage
      by_cases hcut : limit ≤ (page limit s.token items).length
      · apply ih hlisted
        obtain ⟨b, hb, hlast⟩ := exists_last hlimit hcut
        rw [step_cut hdone hcut, hlast]
        simpa using not_lt_of_front hb htoken
      · rw [run_of_done (by rw [step_last hdone (Nat.not_le.mp hcut)])]
        exact hlisted

/-- Fewer items are behind an item that was behind the token. -/
theorem length_filter_lt {b : α} (hmem : b ∈ names) (hb : token.all (· < b) = true) :
    (names.filter fun x => (some b).all (· < x)).length <
      (names.filter fun x => token.all (· < x)).length := by
  have hle : ∀ x, (some b).all (· < x) = true → token.all (· < x) = true := by
    intro x hx
    cases token with
    | none => rfl
    | some t =>
      have htb : t < b := by simpa using hb
      have hbx : b < x := by simpa using hx
      simpa using htb.trans hbx
  have hsub : (names.filter fun x => (some b).all (· < x)).Sublist
      (names.filter fun x => token.all (· < x)) := List.monotone_filter_right _ hle
  by_contra hge
  have heq := hsub.eq_of_length_le (Nat.not_lt.mp hge)
  have hbmem : b ∈ names.filter fun x => token.all (· < x) := List.mem_filter.mpr ⟨hmem, hb⟩
  rw [← heq] at hbmem
  simpa using (List.mem_filter.mp hbmem).2

/-- The walk stops within one call more than there are items behind the token. -/
theorem done_run (hlimit : 0 < limit) (hcalls : ∀ items ∈ calls, items.Perm names)
    (hlen : (names.filter fun x => s.token.all (· < x)).length < calls.length) :
    (run (step limit) s calls).done = true := by
  induction calls generalizing s with
  | nil => simp at hlen
  | cons items calls ih =>
    rw [run_cons]
    by_cases hdone : s.done = true
    · rw [step_of_done hdone, run_of_done hdone, hdone]
    · have hdone : s.done = false := by simpa using hdone
      by_cases hcut : limit ≤ (page limit s.token items).length
      · apply ih fun items' h => hcalls items' (List.mem_cons_of_mem _ h)
        obtain ⟨b, hb, hlast⟩ := exists_last hlimit hcut
        have hmem : b ∈ names := (hcalls items List.mem_cons_self).subset (mem_page hb).1
        have hfewer := length_filter_lt hmem (mem_page hb).2
        rw [step_cut hdone hcut, hlast]
        rw [List.length_cons] at hlen
        exact Nat.lt_of_lt_of_le hfewer (Nat.le_of_lt_succ hlen)
      · rw [step_last hdone (Nat.not_le.mp hcut), run_of_done rfl]

/-- So far nothing was listed twice, and all that is in front of the token was listed. -/
structure Good (names : List α) (s : Walk α) : Prop where
  nodup : s.listed.Nodup
  subset : ∀ x ∈ s.listed, x ∈ names
  listed : ∀ x ∈ names, s.done = true ∨ s.token.all (· < x) = false → x ∈ s.listed

theorem good_start : Good names Walk.start where
  nodup := List.nodup_nil
  subset x hx := absurd hx List.not_mem_nil
  listed x _ h := by simp [Walk.start] at h

theorem Good.step (h : Good names s) (hlimit : 0 < limit) (hnodup : names.Nodup)
    (hitems : items.Perm names) (hexact : Exact limit s items) :
    Good names (step limit s items) := by
  by_cases hdone : s.done = true
  · rw [step_of_done hdone]
    exact h
  have hdone : s.done = false := by simpa using hdone
  obtain ⟨hfresh, hbehind⟩ := hexact hdone
  have hlisted : (TokenWalk.step limit s items).listed = s.listed ++ page limit s.token items :=
    listed_step hdone
  refine ⟨?_, ?_, ?_⟩
  · rw [hlisted]
    exact h.nodup.append (nodup_page (hitems.nodup_iff.mpr hnodup)) fun x hx hpage =>
      hfresh x hpage hx
  · rw [hlisted]
    intro x hx
    obtain hx | hx := List.mem_append.mp hx
    · exact h.subset x hx
    · exact hitems.subset (mem_page hx).1
  · intro x hx hfront
    rw [hlisted, List.mem_append]
    by_cases hcut : limit ≤ (page limit s.token items).length
    · obtain ⟨b, hb, hlast⟩ := exists_last hlimit hcut
      rw [step_cut hdone hcut, hlast] at hfront
      have hxb : x ≤ b := by simpa using hfront
      exact hbehind hcut b hlast x (hitems.symm.subset hx) hxb
    · by_cases htoken : s.token.all (· < x) = true
      · exact .inr (mem_page_of_lt (Nat.not_le.mp hcut) (hitems.symm.subset hx) htoken)
      · exact .inl (h.listed x hx (.inr (by simpa using htoken)))

/-- A walk that lists everything once has exact pages. -/
theorem along_exact_of_listed (hlimit : 0 < limit) (hcalls : ∀ items ∈ calls, items.Perm names)
    (hnodup : (run (step limit) s calls).listed.Nodup)
    (hall : ∀ x ∈ names, x ∈ (run (step limit) s calls).listed) :
    Along (step limit) (Exact limit) s calls := by
  induction calls generalizing s with
  | nil => trivial
  | cons items calls ih =>
    rw [run_cons] at hnodup hall
    refine ⟨fun hdone => ?_,
      ih (fun items' h => hcalls items' (List.mem_cons_of_mem _ h)) hnodup hall⟩
    have hlisted : (step limit s items).listed = s.listed ++ page limit s.token items :=
      listed_step hdone
    have honce := hnodup.sublist prefix_run.sublist
    rw [hlisted] at honce
    refine ⟨fun x hpage hx => List.disjoint_of_nodup_append honce hx hpage, ?_⟩
    intro hcut b hlast x hx hxb
    by_contra hmissing
    have hnever : x ∉ (run (step limit) (step limit s items) calls).listed := by
      apply not_mem_run hlimit
      · rw [hlisted, List.mem_append]
        exact hmissing
      · rw [step_cut hdone hcut, hlast]
        simpa using hxb
    exact hnever (hall x ((hcalls items List.mem_cons_self).subset hx))

/-- The walk lists every item exactly once exactly when every page is exact. -/
theorem listed_perm_iff (hlimit : 0 < limit) (hnodup : names.Nodup)
    (hcalls : ∀ items ∈ calls, items.Perm names) (hlen : names.length < calls.length) :
    (run (step limit) Walk.start calls).listed.Perm names ↔
      Along (step limit) (Exact limit) Walk.start calls := by
  constructor
  · intro hperm
    exact along_exact_of_listed hlimit hcalls (hperm.nodup_iff.mpr hnodup)
      fun x hx => hperm.symm.subset hx
  · intro hexact
    have hgood : Good names (run (step limit) Walk.start calls) := by
      apply invariant_along _ (C := fun s items => Exact limit s items ∧ items.Perm names)
      · exact fun s items hs h => hs.step hlimit hnodup h.2 h.1
      · exact good_start
      · exact hexact.and _ (along_of_forall_mem _ hcalls)
    have hdone : (run (step limit) Walk.start calls).done = true := by
      apply done_run hlimit hcalls
      exact (List.length_filter_le _ _).trans_lt hlen
    rw [List.perm_ext_iff_of_nodup hgood.nodup hnodup]
    exact fun x => ⟨hgood.subset x, fun hx => hgood.listed x hx (.inl hdone)⟩

/-- What was listed is in front of the token. -/
def InFront (s : Walk α) : Prop :=
  ∀ x ∈ s.listed, s.done = true ∨ s.token.all (· < x) = false

/-- A page of items that come in order is exact. -/
theorem exact_of_sorted (hgood : Good names s) (hfront : InFront s)
    (hitems : items.Perm names) (hsorted : items.Pairwise (· < ·)) : Exact limit s items := by
  intro hdone
  constructor
  · intro x hpage hx
    obtain h | h := hfront x hx
    · rw [h] at hdone
      cases hdone
    · rw [(mem_page hpage).2] at h
      cases h
  · intro hcut b hlast x hx hxb
    by_cases htoken : s.token.all (· < x) = true
    · have hmem : x ∈ items.filter fun x => s.token.all (· < x) := List.mem_filter.mpr ⟨hx, htoken⟩
      rw [← List.take_append_drop limit (items.filter _), List.mem_append] at hmem
      obtain hmem | hmem := hmem
      · exact .inr hmem
      · have hpair := (hsorted.filter fun x => s.token.all (· < x))
        rw [← List.take_append_drop limit (items.filter _), List.pairwise_append] at hpair
        exact absurd (hpair.2.2 b (List.mem_of_getLast? hlast) x hmem) hxb.not_gt
    · exact .inl (hgood.listed x (hitems.subset hx) (.inr (by simpa using htoken)))

theorem InFront.step (h : InFront s) (hlimit : 0 < limit)
    (hsorted : items.Pairwise (· < ·)) : InFront (step limit s items) := by
  by_cases hdone : s.done = true
  · rw [step_of_done hdone]
    exact h
  have hdone : s.done = false := by simpa using hdone
  by_cases hcut : limit ≤ (page limit s.token items).length
  · obtain ⟨b, hb, hlast⟩ := exists_last hlimit hcut
    have hpage : (page limit s.token items).Pairwise (· < ·) :=
      (hsorted.filter _).sublist (List.take_sublist _ _)
    obtain ⟨before, hbefore⟩ := List.getLast?_eq_some_iff.mp hlast
    rw [step_cut hdone hcut, hlast]
    intro x hx
    right
    obtain hx | hx := List.mem_append.mp hx
    · obtain hover | hfront := h x hx
      · rw [hover] at hdone
        cases hdone
      · simpa using not_lt_of_front hb hfront
    · rw [hbefore] at hx hpage
      obtain hx | hx := List.mem_append.mp hx
      · simpa using ((List.pairwise_append.mp hpage).2.2 x hx b List.mem_cons_self).le
      · simp [List.mem_singleton.mp hx]
  · rw [step_last hdone (Nat.not_le.mp hcut)]
    exact fun x _ => .inl rfl

/-- Items that come in order at every call are listed exactly once. -/
theorem along_exact_of_sorted (hlimit : 0 < limit) (hnodup : names.Nodup)
    (hcalls : ∀ items ∈ calls, items.Perm names)
    (hsorted : ∀ items ∈ calls, items.Pairwise (· < ·)) :
    Along (step limit) (Exact limit) Walk.start calls := by
  apply along_of_invariant _ (I := fun s => Good names s ∧ InFront s)
    (C := fun _ items => items.Perm names ∧ items.Pairwise (· < ·))
  · exact fun s items hs h => ⟨hs.1.step hlimit hnodup h.1 (exact_of_sorted hs.1 hs.2 h.1 h.2),
      hs.2.step hlimit h.2⟩
  · exact fun s items hs h => exact_of_sorted hs.1 hs.2 h.1 h.2
  · exact ⟨good_start, fun x hx => absurd hx List.not_mem_nil⟩
  · exact along_of_forall_mem _ fun items h => ⟨hcalls items h, hsorted items h⟩

end Runs

end Backbone.TokenWalk
