import Mathlib.Data.List.Forall2

/-!
# Peeling a computation that may fail

A chain of binds answers `.ok` exactly when each of its parts does. The lemmas take such a chain
apart one bind at a time, so that a proof about a computation never unfolds the monad.

`FailsOnly P x` says what the errors of `x` look like, whenever it fails; it is closed under the ways
computations are put together.
-/

namespace Backbone

universe u v

variable {ε : Type u} {α β : Type v} {f : α → Except ε β} {l : List α} {x : Except ε α} {a : α}
  {σ : Type v} {l' : List β}

theorem bind_eq_ok {b : β} : (x >>= f) = .ok b ↔ ∃ a, x = .ok a ∧ f a = .ok b := by
  cases x with
  | error err => simp [bind, Except.bind]
  | ok a => simp [bind, Except.bind]

instance decidableExistsOk {x : Except ε α} {P : α → Prop} [DecidablePred P] :
    Decidable (∃ a, x = .ok a ∧ P a) :=
  match x with
  | .ok a => decidable_of_iff (P a) (by simp)
  | .error _ => .isFalse fun ⟨_, h, _⟩ => by cases h

instance decidableForallOk {x : Except ε α} {P : α → Prop} [DecidablePred P] :
    Decidable (∀ a, x = .ok a → P a) :=
  match x with
  | .ok a => decidable_of_iff (P a) (by simp)
  | .error _ => .isTrue fun _ h => by cases h

theorem pure_eq_ok {b : α} : (pure a : Except ε α) = .ok b ↔ a = b := by
  simp [pure, Except.pure]

theorem mapError_eq_ok {ε' : Type*} {f : ε → ε'} : x.mapError f = .ok a ↔ x = .ok a := by
  cases x with
  | error err => exact iff_of_false (fun h => by cases h) (fun h => by cases h)
  | ok b => exact ⟨fun h => by cases h; rfl, fun h => by cases h; rfl⟩

/-- A loop whose first step succeeds goes on from there. -/
theorem foldlM_cons_ok {f : σ → α → Except ε σ} {s t : σ} (h : f s a = .ok t) :
    (a :: l).foldlM f s = l.foldlM f t := by
  rw [List.foldlM_cons, h]
  rfl

theorem foldlM_append_ok {f : σ → α → Except ε σ} {l' : List α} {s t : σ}
    (h : l.foldlM f s = .ok t) : (l ++ l').foldlM f s = l'.foldlM f t := by
  rw [List.foldlM_append, h]
  rfl

/-- A list goes through a computation when each of its elements does. -/
theorem mapM_eq_ok : l.mapM f = .ok l' ↔ List.Forall₂ (fun a b => f a = .ok b) l l' := by
  induction l generalizing l' with
  | nil =>
    rw [List.mapM_nil, pure_eq_ok, List.forall₂_nil_left_iff]
    exact eq_comm
  | cons a l ih =>
    rw [List.mapM_cons, bind_eq_ok, List.forall₂_cons_left_iff]
    simp only [bind_eq_ok, pure_eq_ok, ih]
    constructor
    · rintro ⟨b, hb, bs, hbs, rfl⟩
      exact ⟨b, bs, hb, hbs, rfl⟩
    · rintro ⟨b, bs, hb, hbs, rfl⟩
      exact ⟨b, hb, bs, hbs, rfl⟩

theorem exists_mapM_eq_ok : (∃ l', l.mapM f = .ok l') ↔ ∀ a ∈ l, ∃ b, f a = .ok b := by
  simp only [mapM_eq_ok]
  induction l with
  | nil => exact iff_of_true ⟨[], .nil⟩ fun a ha => absurd ha List.not_mem_nil
  | cons a l ih =>
    rw [List.forall_mem_cons, ← ih]
    constructor
    · rintro ⟨l', hl'⟩
      obtain ⟨b, bs, hb, hbs, rfl⟩ := List.forall₂_cons_left_iff.mp hl'
      exact ⟨⟨b, hb⟩, bs, hbs⟩
    · rintro ⟨⟨b, hb⟩, bs, hbs⟩
      exact ⟨b :: bs, .cons hb hbs⟩

theorem forM_eq_ok {f : α → Except ε Unit} (h : ∀ a ∈ l, f a = .ok ()) : l.forM f = .ok () := by
  induction l with
  | nil => rfl
  | cons a l ih =>
    rw [List.forM_eq_forM, List.forM_cons, h a List.mem_cons_self]
    exact ih fun b hb => h b (List.mem_cons_of_mem _ hb)

theorem eq_ok_of_forM {f : α → Except ε Unit} (h : l.forM f = .ok ()) : ∀ a ∈ l, f a = .ok () := by
  induction l with
  | nil => exact fun a ha => absurd ha List.not_mem_nil
  | cons a l ih =>
    rw [List.forM_eq_forM, List.forM_cons] at h
    obtain ⟨_, ha, hl⟩ := bind_eq_ok.mp h
    exact List.forall_mem_cons.mpr ⟨ha, ih hl⟩

theorem exists_filterMapM_eq_ok {f : α → Except ε (Option β)} (h : ∀ a ∈ l, ∃ b, f a = .ok b) :
    ∃ l', l.filterMapM f = .ok l' := by
  induction l with
  | nil => exact ⟨[], rfl⟩
  | cons a l ih =>
    obtain ⟨b, hb⟩ := h a List.mem_cons_self
    obtain ⟨rest, hrest⟩ := ih fun c hc => h c (List.mem_cons_of_mem _ hc)
    rw [List.filterMapM_cons]
    cases b with
    | none => exact ⟨rest, bind_eq_ok.mpr ⟨none, hb, hrest⟩⟩
    | some b => exact ⟨b :: rest, bind_eq_ok.mpr ⟨some b, hb, bind_eq_ok.mpr ⟨rest, hrest, rfl⟩⟩⟩

theorem mapM_eq_some {f : α → Option β} :
    l.mapM f = some l' ↔ List.Forall₂ (fun a b => f a = some b) l l' := by
  induction l generalizing l' with
  | nil =>
    rw [List.mapM_nil, List.forall₂_nil_left_iff]
    exact Option.some_inj.trans eq_comm
  | cons a l ih =>
    rw [List.mapM_cons, List.forall₂_cons_left_iff]
    simp only [Option.bind_eq_bind, Option.bind_eq_some_iff, Option.pure_def, Option.some_inj, ih]
    constructor
    · rintro ⟨b, hb, bs, hbs, rfl⟩
      exact ⟨b, bs, hb, hbs, rfl⟩
    · rintro ⟨b, bs, hb, hbs, rfl⟩
      exact ⟨b, hb, bs, hbs, rfl⟩

theorem mapM_congr {m : Type v → Type u} [Monad m] [LawfulMonad m] {f g : α → m β}
    (h : ∀ a ∈ l, f a = g a) : l.mapM f = l.mapM g := by
  induction l with
  | nil => rfl
  | cons a l ih =>
    obtain ⟨ha, hl⟩ := List.forall_mem_cons.mp h
    rw [List.mapM_cons, List.mapM_cons, ha, ih hl]

/-- Every error of `x` satisfies `P`. -/
def FailsOnly (P : ε → Prop) (x : Except ε α) : Prop := ∀ err, x = .error err → P err

namespace FailsOnly

variable {P : ε → Prop} {x : Except ε α}

theorem ok (a : α) : FailsOnly P (.ok a) := nofun

theorem pure (a : α) : FailsOnly P (Pure.pure a : Except ε α) := nofun

theorem error {err : ε} (h : P err) : FailsOnly P (.error err : Except ε α) := by
  rintro _ ⟨⟩
  exact h

theorem bind (hx : FailsOnly P x) (hf : ∀ a, FailsOnly P (f a)) : FailsOnly P (x >>= f) := by
  intro err h
  cases x with
  | error err' =>
    simp only [Bind.bind, Except.bind, Except.error.injEq] at h
    exact hx err (by rw [h])
  | ok a => exact hf a err h

theorem mapM (l : List α) (h : ∀ a, FailsOnly P (f a)) : FailsOnly P (l.mapM f) := by
  induction l with
  | nil => rw [List.mapM_nil]; exact .pure []
  | cons a l ih =>
    rw [List.mapM_cons]
    exact .bind (h a) fun b => .bind ih fun bs => .pure (b :: bs)

theorem ite {c : Prop} [Decidable c] {y : Except ε α} (hx : FailsOnly P x) (hy : FailsOnly P y) :
    FailsOnly P (if c then x else y) := by
  split
  · exact hx
  · exact hy

end FailsOnly

/-- Two computations that fail alike, or answer related values. -/
inductive Related {α β : Type v} (R : α → β → Prop) : Except ε α → Except ε β → Prop
  | ok {a : α} {b : β} (h : R a b) : Related R (.ok a) (.ok b)
  | error (err : ε) : Related R (.error err) (.error err)

namespace Related

variable {α β γ : Type v} {R : α → β → Prop}

theorem pure {a : α} {b : β} (h : R a b) :
    Related R (Pure.pure a : Except ε α) (Pure.pure b : Except ε β) := .ok h

theorem bind {x : Except ε γ} {f : γ → Except ε α} {g : γ → Except ε β}
    (h : ∀ c, x = .ok c → Related R (f c) (g c)) : Related R (x >>= f) (x >>= g) := by
  cases x with
  | error err => exact .error err
  | ok c => exact h c rfl

theorem ite {c : Prop} [Decidable c] {x y : Except ε α} {x' y' : Except ε β}
    (hx : Related R x x') (hy : Related R y y') :
    Related R (if c then x else y) (if c then x' else y') := by
  split
  · exact hx
  · exact hy

end Related

end Backbone
