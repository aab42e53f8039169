import Mathlib.Data.List.Basic
import Mathlib.Logic.Relation

/-!
# Computations that may panic

A computation threads a state and ends with a value, an error or a panic. An error is an answer of
the computation; a panic is none. `Panics x s` says that `x` panics from the state `s`, and one lemma
for each way computations are put together says which of the parts panicked.

A recursion over a tree goes from node to node. `panics_iff_reached` turns what one node can do,
panic by itself or go on to a node below, into what the whole recursion can do.
-/

namespace Backbone

universe u

/-- How a computation stops early. -/
inductive Stop where
  | error (message : String)
  | panic
deriving DecidableEq, Repr

/-- A computation over a state. -/
abbrev Comp (σ : Type) (α : Type) := StateT σ (Except Stop) α

namespace Comp

variable {σ α β : Type} {x : Comp σ α}

/-- `Err(message)`. -/
def fail (message : String) : Comp σ α := fun _ => .error (.error message)

def panic : Comp σ α := fun _ => .error .panic

/-- The value, or a panic where there is none. -/
def orPanic : Option α → Comp σ α
  | some a => pure a
  | none => panic

/-- The value, or an error where there is none. -/
def orFail (message : String) : Option α → Comp σ α
  | some a => pure a
  | none => fail message

/-- A call of a function that answers or fails. -/
def ofExcept (f : σ → Except String (α × σ)) : Comp σ α := fun s =>
  match f s with
  | .ok answer => .ok answer
  | .error message => .error (.error message)

/-- From `s` the computation panics. -/
def Panics (x : Comp σ α) (s : σ) : Prop := x s = .error .panic

instance [DecidableEq σ] [DecidableEq α] (x : Comp σ α) (s : σ) : Decidable (x.Panics s) :=
  inferInstanceAs (Decidable (x s = .error .panic))

/-- From `s` the computation answers `a` and leaves `s'`. -/
def Answers (x : Comp σ α) (s : σ) (a : α) (s' : σ) : Prop := x s = .ok (a, s')

/-- From `s` the computation answers a value or an error. -/
def Returns (x : Comp σ α) (s : σ) : Prop :=
  (∃ a s', x.Answers s a s') ∨ ∃ message, x s = .error (.error message)

theorem returns_iff {s : σ} : x.Returns s ↔ ¬ x.Panics s := by
  unfold Returns Panics Answers
  cases x s with
  | ok p => exact iff_of_true (.inl ⟨p.1, p.2, rfl⟩) fun h => by cases h
  | error stop =>
    cases stop with
    | error message => exact iff_of_true (.inr ⟨message, rfl⟩) fun h => by cases h
    | panic =>
      refine iff_of_false ?_ fun h => h rfl
      rintro (⟨a, s', h⟩ | ⟨message, h⟩) <;> cases h

/-- What a caller that sees no state gets: nothing of a panic. -/
def answer? (x : Comp σ α) (s : σ) : Option (Except String α) :=
  match x s with
  | .ok p => some (.ok p.1)
  | .error (.error message) => some (.error message)
  | .error .panic => none

theorem answer?_getD {s : σ} (h : x.Returns s) (d : Except String α) :
    some ((x.answer? s).getD d) = x.answer? s := by
  unfold answer?
  rcases h with ⟨a, s', h⟩ | ⟨message, h⟩
  · unfold Answers at h
    rw [h]
    rfl
  · rw [h]
    rfl

section Parts

variable {s s' : σ} {a b : α} {x : Comp σ α} {f : α → Comp σ β} {g : α → β} (message : String)
  (o : Option α)

@[simp] theorem pure_panics : ¬ (pure a : Comp σ α).Panics s := by
  intro h
  cases h

@[simp] theorem fail_panics : ¬ (fail message : Comp σ α).Panics s := by
  intro h
  cases h

@[simp] theorem panic_panics : (panic : Comp σ α).Panics s := rfl

@[simp] theorem orPanic_panics {o : Option α} : (orPanic o : Comp σ α).Panics s ↔ o = none := by
  cases o with
  | none => exact iff_of_true rfl rfl
  | some a => exact iff_of_false pure_panics (Option.some_ne_none a)

theorem orPanic_bind (g : α → Option β) :
    (orPanic o >>= fun a => orPanic (g a) : Comp σ β) = orPanic (o.bind g) := by
  cases o with
  | none => rfl
  | some a => rfl

@[simp] theorem orFail_panics : ¬ (orFail message o : Comp σ α).Panics s := by
  cases o with
  | none => exact fail_panics message
  | some a => exact pure_panics

@[simp] theorem ofExcept_panics (f : σ → Except String (α × σ)) : ¬ (ofExcept f).Panics s := by
  unfold Panics ofExcept
  cases f s with
  | ok answer => exact fun h => by cases h
  | error message => exact fun h => by cases h

theorem pure_answers : (pure a : Comp σ α).Answers s b s' ↔ a = b ∧ s = s' := by
  constructor
  · intro h
    cases h
    exact ⟨rfl, rfl⟩
  · rintro ⟨rfl, rfl⟩
    rfl

theorem bind_answers {c : β} : (x >>= f).Answers s c s' ↔
    ∃ b t, x.Answers s b t ∧ (f b).Answers t c s' := by
  unfold Answers
  change (x s >>= fun p => f p.1 p.2) = _ ↔ _
  cases x s with
  | error stop => simp [bind, Except.bind]
  | ok p =>
    obtain ⟨b, t⟩ := p
    simp [bind, Except.bind]

/-- A sequence panics where its first part does, or the second from what the first leaves. -/
theorem bind_panics : (x >>= f).Panics s ↔
    x.Panics s ∨ ∃ b t, x.Answers s b t ∧ (f b).Panics t := by
  unfold Panics Answers
  change (x s >>= fun p => f p.1 p.2) = _ ↔ _
  cases x s with
  | error stop => simp [bind, Except.bind]
  | ok p =>
    obtain ⟨b, t⟩ := p
    simp [bind, Except.bind]

theorem map_answers {b : β} : (g <$> x).Answers s b s' ↔ ∃ a, x.Answers s a s' ∧ g a = b := by
  rw [← bind_pure_comp, bind_answers]
  constructor
  · rintro ⟨a, t, hx, hpure⟩
    obtain ⟨hb, rfl⟩ := pure_answers.mp hpure
    exact ⟨a, hx, hb⟩
  · rintro ⟨a, hx, rfl⟩
    exact ⟨a, s', hx, rfl⟩

theorem bind_pure_panics : (x >>= fun b => pure (g b)).Panics s ↔ x.Panics s := by
  rw [bind_panics, or_iff_left]
  rintro ⟨b, t, -, h⟩
  exact pure_panics h

theorem map_panics : (g <$> x).Panics s ↔ x.Panics s := by
  rw [← bind_pure_comp]
  exact bind_pure_panics

end Parts

section Loops

variable {s : σ} {l : List α}

/-- A loop panics in one of its steps, after the ones before it. -/
theorem foldlM_panics {f : β → α → Comp σ β} {b : β} :
    (l.foldlM f b).Panics s ↔ ∃ before a after, l = before ++ a :: after ∧
      ∃ c t, (before.foldlM f b).Answers s c t ∧ (f c a).Panics t := by
  induction l generalizing b s with
  | nil =>
    refine iff_of_false pure_panics ?_
    rintro ⟨before, a, after, h, -⟩
    exact List.append_ne_nil_of_right_ne_nil _ (List.cons_ne_nil _ _) h.symm
  | cons x l ih =>
    rw [List.foldlM_cons, bind_panics]
    constructor
    · rintro (h | ⟨c, t, hx, h⟩)
      · exact ⟨[], x, l, rfl, b, s, rfl, h⟩
      · obtain ⟨before, a, after, rfl, d, t', hbefore, h⟩ := ih.mp h
        refine ⟨x :: before, a, after, rfl, d, t', ?_, h⟩
        rw [List.foldlM_cons]
        exact bind_answers.mpr ⟨c, t, hx, hbefore⟩
    · rintro ⟨before, a, after, hl, d, t', hbefore, h⟩
      cases before with
      | nil =>
        obtain ⟨rfl, rfl⟩ := List.cons.inj hl
        obtain ⟨rfl, rfl⟩ := pure_answers.mp hbefore
        exact .inl h
      | cons y before =>
        obtain ⟨rfl, rfl⟩ := List.cons.inj hl
        rw [List.foldlM_cons] at hbefore
        obtain ⟨c, t, hx, hbefore⟩ := bind_answers.mp hbefore
        exact .inr ⟨c, t, hx, ih.mpr ⟨before, a, after, rfl, d, t', hbefore, h⟩⟩

/-- Collecting the answers of a list panics at one of its elements, after the ones before it. -/
theorem mapM_panics {f : α → Comp σ β} :
    (l.mapM f).Panics s ↔ ∃ before a after, l = before ++ a :: after ∧
      ∃ bs t, (before.mapM f).Answers s bs t ∧ (f a).Panics t := by
  rw [List.mapM_eq_reverse_foldlM_cons, map_panics, foldlM_panics]
  constructor
  · rintro ⟨before, a, after, rfl, bs, t, hbefore, h⟩
    refine ⟨before, a, after, rfl, bs.reverse, t, ?_, map_panics.mp h⟩
    rw [List.mapM_eq_reverse_foldlM_cons]
    exact map_answers.mpr ⟨bs, hbefore, rfl⟩
  · rintro ⟨before, a, after, rfl, bs, t, hbefore, h⟩
    rw [List.mapM_eq_reverse_foldlM_cons] at hbefore
    obtain ⟨cs, hbefore, -⟩ := map_answers.mp hbefore
    exact ⟨before, a, after, rfl, cs, t, hbefore, map_panics.mpr h⟩

end Loops

end Comp

/-! ## Recursions over a tree -/

section Nodes

variable {Node : Type u} {next : Node → Node → Prop} {own panics : Node → Prop}

/-- Where a node panics exactly by itself or at a node it goes on to, and going on ends, it panics
exactly if it reaches a node that panics by itself. -/
theorem panics_iff_reached (hwf : WellFounded (Function.swap next))
    (hstep : ∀ n, panics n ↔ own n ∨ ∃ m, next n m ∧ panics m) (n : Node) :
    panics n ↔ ∃ m, Relation.ReflTransGen next n m ∧ own m := by
  constructor
  · intro h
    induction n using hwf.induction with
    | _ n ih =>
      rcases (hstep n).mp h with hown | ⟨m, hnext, hm⟩
      · exact ⟨n, .refl, hown⟩
      · obtain ⟨k, hreach, hown⟩ := ih m hnext hm
        exact ⟨k, .head hnext hreach, hown⟩
  · rintro ⟨m, hreach, hown⟩
    induction hreach using Relation.ReflTransGen.head_induction_on with
    | refl => exact (hstep m).mpr (.inl hown)
    | head hnext _ ih => exact (hstep _).mpr (.inr ⟨_, hnext, ih⟩)

end Nodes

end Backbone
