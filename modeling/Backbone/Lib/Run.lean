import Mathlib.Data.List.Basic

/-!
# Runs of a machine

A machine is a step function `σ → α → σ`: a state, an action that carries every choice the
environment makes, the next state. A run is the fold of a list of actions. Whatever an action may
be refused for is a no-op of the step function, so every list of actions is a run and a statement
about every run quantifies over lists.

`Along` is a condition on the steps of a run: on each action together with the state it meets.
A condition may also read a history variable, kept beside the run by `withHistory` and never read by
the machine.
-/

namespace Backbone.Machine

variable {σ α β γ : Type*} (step : σ → α → σ) {C D : σ → α → Prop} {as : List α} {s : σ}
  {I : σ → Prop} {R : σ → σ → Prop} (note : γ → σ → α → σ → γ)

/-- The state a list of actions leads to. -/
def run (s : σ) (as : List α) : σ := as.foldl step s

@[simp] theorem run_nil (s : σ) : run step s [] = s := rfl

@[simp] theorem run_cons (s : σ) (a : α) (as : List α) :
    run step s (a :: as) = run step (step s a) as := rfl

theorem run_append (s : σ) (as bs : List α) : run step s (as ++ bs) = run step (run step s as) bs :=
  List.foldl_append

/-- Each action of the run meets `C` together with the state it is taken in. -/
def Along (C : σ → α → Prop) : σ → List α → Prop
  | _, [] => True
  | s, a :: as => C s a ∧ Along C (step s a) as

instance decidableAlong {C : σ → α → Prop} [∀ s a, Decidable (C s a)] :
    ∀ (s : σ) (as : List α), Decidable (Along step C s as)
  | _, [] => isTrue trivial
  | s, a :: as => @instDecidableAnd _ _ _ (decidableAlong (step s a) as)

theorem along_append {bs : List α} :
    Along step C s (as ++ bs) ↔ Along step C s as ∧ Along step C (run step s as) bs := by
  induction as generalizing s with
  | nil => simp [Along]
  | cons a as ih => simp [Along, ih, and_assoc]

theorem Along.mono (h : ∀ s a, C s a → D s a) (hs : Along step C s as) : Along step D s as := by
  induction as generalizing s with
  | nil => trivial
  | cons a as ih => exact ⟨h s a hs.1, ih hs.2⟩

/-- What every action of a list satisfies, every step of its run satisfies. -/
theorem along_of_forall_mem {D : α → Prop} (h : ∀ a ∈ as, D a) :
    Along step (fun _ a => D a) s as := by
  induction as generalizing s with
  | nil => trivial
  | cons a as ih =>
    exact ⟨h a List.mem_cons_self, ih fun b hb => h b (List.mem_cons_of_mem _ hb)⟩

theorem Along.and (hC : Along step C s as) (hD : Along step D s as) :
    Along step (fun s a => C s a ∧ D s a) s as := by
  induction as generalizing s with
  | nil => trivial
  | cons a as ih => exact ⟨⟨hC.1, hD.1⟩, ih hC.2 hD.2⟩

/-- An invariant of the steps that meet `C` holds at the end of every run along `C`. -/
theorem invariant_along (h : ∀ s a, I s → C s a → I (step s a)) (hs : I s) (hC : Along step C s as) :
    I (run step s as) := by
  induction as generalizing s with
  | nil => exact hs
  | cons a as ih => exact ih (h s a hs hC.1) hC.2

/-- An invariant of the steps holds at the end of every run. -/
theorem invariant_run (h : ∀ s a, I s → I (step s a)) (as : List α) (hs : I s) :
    I (run step s as) := by
  induction as generalizing s with
  | nil => exact hs
  | cons a as ih => exact ih (h s a hs)

section

variable (h : ∀ s a, I s → C s a → I (step s a))
include h

/-- What every step from an invariant state satisfies, every step of a run satisfies. -/
theorem along_of_invariant (hD : ∀ s a, I s → C s a → D s a)
    (hs : I s) (hC : Along step C s as) : Along step D s as := by
  induction as generalizing s with
  | nil => trivial
  | cons a as ih => exact ⟨hD s a hs hC.1, ih (h s a hs hC.1) hC.2⟩

/-- Two conditions that agree in the states of an invariant, and one of which keeps it, are met by the
same runs. -/
theorem along_iff_of_invariant
    (hiff : ∀ s a, I s → (D s a ↔ C s a)) (hs : I s) : Along step D s as ↔ Along step C s as := by
  induction as generalizing s with
  | nil => exact Iff.rfl
  | cons a as ih =>
    constructor
    · rintro ⟨hD, hrest⟩
      have hC := (hiff s a hs).mp hD
      exact ⟨hC, (ih (h s a hs hC)).mp hrest⟩
    · rintro ⟨hC, hrest⟩
      exact ⟨(hiff s a hs).mpr hC, (ih (h s a hs hC)).mpr hrest⟩

/-- Along a run that keeps an invariant, two conditions that agree in its states are met together. -/
theorem along_congr_of_invariant {E : σ → α → Prop}
    (hiff : ∀ s a, I s → C s a → (D s a ↔ E s a)) (hs : I s) (hC : Along step C s as) :
    Along step D s as ↔ Along step E s as := by
  induction as generalizing s with
  | nil => exact Iff.rfl
  | cons a as ih => exact and_congr (hiff s a hs hC.1) (ih (h s a hs hC.1) hC.2)

end

/-- A relation every step is in, reflexive and transitive, relates the two ends of a run. -/
theorem rel_run (hrefl : ∀ s, R s s)
    (htrans : ∀ {s t u}, R s t → R t u → R s u) (h : ∀ s a, R s (step s a))
    (s : σ) (as : List α) : R s (run step s as) := by
  induction as generalizing s with
  | nil => exact hrefl s
  | cons a as ih => exact htrans (h s a) (ih (step s a))

/-- The machine with a history variable: `note` reads the state, the action and the next state. -/
def withHistory (note : γ → σ → α → σ → γ) (p : σ × γ) (a : α) : σ × γ :=
  (step p.1 a, note p.2 p.1 a (step p.1 a))

/-- The history variable does not disturb the run. -/
theorem run_withHistory_fst (p : σ × γ) (as : List α) :
    (run (withHistory step note) p as).1 = run step p.1 as := by
  induction as generalizing p with
  | nil => rfl
  | cons a as ih => exact ih _

/-- A condition on the states alone is met along the machine with history exactly when it is met
along the machine. -/
theorem along_withHistory_iff (p : σ × γ) (as : List α) :
    Along (withHistory step note) (fun q a => C q.1 a) p as ↔ Along step C p.1 as := by
  induction as generalizing p with
  | nil => exact Iff.rfl
  | cons a as ih => exact and_congr Iff.rfl (ih _)

/-! ## What one party sees of a run -/

/-- What the actions of a party answer in a run, in their order. -/
def outputs (out : σ → α → β) (own : α → Bool) : σ → List α → List β
  | _, [] => []
  | s, a :: as =>
    if own a then out s a :: outputs out own (step s a) as else outputs out own (step s a) as

/-- Unwinding: the party is answered as in the run of its own actions alone, if some relation between
the shared state and the state it would have alone survives every step: the party's own actions are
answered alike in related states and lead to related states, and the actions of others leave a state
related to what it was related to. -/
theorem outputs_filter {out : σ → α → β} {own : α → Bool}
    (hown : ∀ s t a, R s t → C s a → own a = true → out s a = out t a ∧ R (step s a) (step t a))
    (hother : ∀ s t a, R s t → C s a → own a = false → R (step s a) t) {t : σ} (h : R s t)
    (hC : Along step C s as) :
    outputs step out own s as = outputs step out own t (as.filter own) := by
  induction as generalizing s t with
  | nil => rfl
  | cons a as ih =>
    cases ha : own a with
    | false =>
      rw [List.filter_cons_of_neg (by simp [ha]), outputs, if_neg (by simp [ha])]
      exact ih (hother s t a h hC.1 ha) hC.2
    | true =>
      obtain ⟨hout, hrel⟩ := hown s t a h hC.1 ha
      rw [List.filter_cons_of_pos ha, outputs, outputs, if_pos ha, if_pos ha, hout, ih hrel hC.2]

end Backbone.Machine
