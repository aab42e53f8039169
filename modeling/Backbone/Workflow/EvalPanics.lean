import Backbone.Workflow.Eval

/-!
# When an evaluation panics

Evaluation meets `chrono` in one place: a time that is moved by a duration literal. The literal is an
`i64` of seconds that nothing bounds, `-` negates it, `Duration::seconds` takes a thousandth of an
`i64`, and the moved time is to be an instant. Everything else an expression, a template or a
parameter does ends with a value or an error, at any depth.

So an evaluation panics exactly if it comes to such a move that does not fit. Which moves it comes to
is told node by node (`Expr.Next`, `Template.Hole`, `Tpl.Next`); what a tree may come to in any scope
is told by its literals (`Expr.moves`).

Reference: `backbone-core/src/workflow/expr.rs` (`eval`, `render`, `render_duration`, `binary`).
-/

namespace Backbone.Workflow

open Comp (bind_panics bind_pure_panics pure_panics fail_panics orPanic_panics orFail_panics)

variable {Instant σ : Type} {C : Chrono Instant} {F : Funcs σ} {scope : Scope} {s : σ}
  {n : Expr × σ}

/-! ## Moving a time -/

/-- A time that is moved by a duration literal. -/
structure Shift (Instant : Type) where
  op : BinOp
  time : Instant
  secs : ℤ

/-- The signed seconds of the move. -/
def Shift.delta (m : Shift Instant) : ℤ := if m.op = .add then m.secs else -m.secs

/-- The literal is a duration, and the moved time is an instant. -/
def Shift.Fits (C : Chrono Instant) (m : Shift Instant) : Prop :=
  m.secs.natAbs ≤ maxDurationSecs ∧ (C.checkedAdd m.time m.delta).isSome

/-- A literal that `-` cannot negate is no duration either way. -/
theorem durationSeconds_signed (op : BinOp) (t : Instant) (secs : ℤ) :
    (if op == .add then some secs else negI64 secs).bind durationSeconds =
      if secs.natAbs ≤ maxDurationSecs then some (Shift.delta ⟨op, t, secs⟩) else none := by
  unfold Shift.delta
  by_cases hadd : op = .add
  · rw [if_pos (beq_iff_eq.mpr hadd), if_pos hadd]
    rfl
  · rw [if_neg (mt beq_iff_eq.mp hadd), if_neg hadd]
    by_cases hmin : secs = -i64Bound
    · have hneg : negI64 secs = none := if_pos hmin
      have hlarge : ¬ secs.natAbs ≤ maxDurationSecs := by
        rw [hmin]
        decide
      rw [hneg, if_neg hlarge]
      rfl
    · have hneg : negI64 secs = some (-secs) := if_neg hmin
      rw [hneg, Option.bind_some]
      unfold durationSeconds
      rw [Int.natAbs_neg]

theorem moveTime_panics {op : BinOp} {t : Instant} {secs : ℤ} :
    (moveTime C op t secs).Panics s ↔ ¬ Shift.Fits C ⟨op, t, secs⟩ := by
  have hmove : (moveTime C op t secs : Comp σ Instant) = Comp.orPanic
      (((if op == .add then some secs else negI64 secs).bind durationSeconds).bind
        (C.checkedAdd t)) := by
    unfold moveTime
    rw [← Comp.orPanic_bind, ← Comp.orPanic_bind, bind_assoc]
  unfold Shift.Fits
  rw [hmove, orPanic_panics, durationSeconds_signed op t]
  by_cases hfits : secs.natAbs ≤ maxDurationSecs
  · rw [if_pos hfits, Option.bind_some]
    simp [hfits]
  · rw [if_neg hfits]
    exact iff_of_true rfl fun h => hfits h.1

/-! ## What never panics -/

section Parts

variable {s : σ} {op : BinOp} {right : Expr}

/-- A path's root is `steps` only where the source has answered before. -/
theorem readPath_returns (root : Root) (path : List Seg) :
    ¬ (readPath root path scope : Comp σ Value).Panics s := by
  unfold readPath
  by_cases hsteps : root = .steps
  · rw [if_pos (beq_iff_eq.mpr hsteps)]
    exact pure_panics
  · rw [if_neg (mt beq_iff_eq.mp hsteps), bind_pure_panics, orPanic_panics]
    cases root with
    | steps => exact absurd rfl hsteps
    | context | event | result | error | config => exact Option.some_ne_none _

theorem method_returns (recv : Value) (name : String) (args : List Value) :
    ¬ (method recv name args : Comp σ Value).Panics s := by
  unfold method
  split_ifs
  · exact pure_panics
  · exact pure_panics
  · exact pure_panics
  · exact pure_panics
  · exact fail_panics _

theorem sum_returns (op : BinOp) (l r : Value) : ¬ (sum op l r : Comp σ Value).Panics s := by
  unfold sum
  split
  · exact pure_panics
  · split
    · exact pure_panics
    · exact fail_panics _

theorem product_returns (op : BinOp) (l r : Value) :
    ¬ (product op l r : Comp σ Value).Panics s := by
  unfold product
  split
  · split
    · exact fail_panics _
    · exact pure_panics
  · exact fail_panics _

theorem callFunc_returns (name : String) (vals : List Value) :
    ¬ (callFunc F name vals).Panics s := by
  unfold callFunc
  split_ifs
  · intro h
    cases h
  · exact pure_panics
  · exact method_returns _ _ _
  · exact Comp.ofExcept_panics _

theorem addOrSub_panics {l r : Value} :
    (addOrSub C op l r right).Panics s ↔ ∃ t secs,
      parseTime C l = some t ∧ right = .dur secs ∧ ¬ Shift.Fits C ⟨op, t, secs⟩ := by
  unfold addOrSub
  split
  · rename_i t secs htime
    rw [bind_pure_panics, moveTime_panics]
    constructor
    · intro h
      exact ⟨t, secs, htime, rfl, h⟩
    · rintro ⟨t', secs', htime', hsecs, h⟩
      cases htime.symm.trans htime'
      cases hsecs
      exact h
  · rename_i hother
    refine iff_of_false (sum_returns _ _ _) ?_
    rintro ⟨t, secs, htime, rfl, -⟩
    exact hother t secs htime rfl

/-- An operator that is not short-circuited panics only in moving a time by a literal. -/
theorem binary_panics {l r : Value} (hand : op ≠ .and)
    (hor : op ≠ .or) : (binary C op l r right).Panics s ↔
      (op = .add ∨ op = .sub) ∧ ∃ t secs, parseTime C l = some t ∧ right = .dur secs ∧
        ¬ Shift.Fits C ⟨op, t, secs⟩ := by
  cases op with
  | and => exact absurd rfl hand
  | or => exact absurd rfl hor
  | add => exact addOrSub_panics.trans (and_iff_right (.inl rfl)).symm
  | sub => exact addOrSub_panics.trans (and_iff_right (.inr rfl)).symm
  | mul | div | mod => exact iff_of_false (product_returns _ _ _) (by simp)
  | eq | ne | lt | le | gt | ge => exact iff_of_false pure_panics (by simp)

end Parts

/-! ## Expressions -/

/-- The operator goes on to its right side after this left one. -/
def BinOp.goesOn : BinOp → Value → Bool
  | .and, left => truthy left
  | .or, left => !truthy left
  | _, _ => true

section Expressions

variable (C F scope)

/-- The evaluation of an expression goes on to one below it, from the state that what came before
leaves. -/
inductive Expr.Next : Expr × σ → Expr × σ → Prop
  | not {e : Expr} {s : σ} : Next (.not e, s) (e, s)
  | neg {e : Expr} {s : σ} : Next (.neg e, s) (e, s)
  | left {op : BinOp} {l r : Expr} {s : σ} : Next (.bin op l r, s) (l, s)
  | right {op : BinOp} {l r : Expr} {s s' : σ} {v : Value}
      (hleft : (eval C F scope l).Answers s v s') (hgo : op.goesOn v) :
      Next (.bin op l r, s) (r, s')
  | first {l r : Expr} {s : σ} : Next (.coalesce l r, s) (l, s)
  | second {l r : Expr} {s s' : σ} {v : Value} (hleft : (eval C F scope l).Answers s v s')
      (hnull : v.isNull) : Next (.coalesce l r, s) (r, s')
  | cond {c t e : Expr} {s : σ} : Next (.ite c t e, s) (c, s)
  | branch {c t e : Expr} {s s' : σ} {v : Value} (hcond : (eval C F scope c).Answers s v s') :
      Next (.ite c t e, s) (if truthy v then t else e, s')
  | item {before after : List Expr} {e : Expr} {s s' : σ} {vs : List Value}
      (hbefore : (evalAll C F scope before).Answers s vs s') :
      Next (.array (before ++ e :: after), s) (e, s')
  | needle {l r : Expr} {negate : Bool} {s : σ} : Next (.mem l r negate, s) (l, s)
  | hay {l r : Expr} {negate : Bool} {s s' : σ} {v : Value}
      (hleft : (eval C F scope l).Answers s v s') : Next (.mem l r negate, s) (r, s')
  | receiver {obj : Expr} {name : String} {args : List Expr} {s : σ} :
      Next (.method obj name args, s) (obj, s)
  | methodArg {obj e : Expr} {name : String} {before after : List Expr} {s s₁ s' : σ} {v : Value}
      {vs : List Value} (hobj : (eval C F scope obj).Answers s v s₁)
      (hbefore : (evalAll C F scope before).Answers s₁ vs s') :
      Next (.method obj name (before ++ e :: after), s) (e, s')
  | callArg {e : Expr} {name : String} {before after : List Expr} {s s' : σ} {vs : List Value}
      (hbefore : (evalAll C F scope before).Answers s vs s') :
      Next (.call name (before ++ e :: after), s) (e, s')

/-- The evaluation of an expression moves a time by the literal on its right. -/
inductive Expr.Makes : Expr × σ → Shift Instant → Prop
  | mk {op : BinOp} {l : Expr} {secs : ℤ} {s s' : σ} {v : Value} {t : Instant}
      (hop : op = .add ∨ op = .sub) (hleft : (eval C F scope l).Answers s v s')
      (htime : parseTime C v = some t) : Makes (.bin op l (.dur secs), s) ⟨op, t, secs⟩

/-- The evaluation comes to the move. -/
def Expr.Reaches (e : Expr) (s : σ) (m : Shift Instant) : Prop :=
  ∃ n, Relation.ReflTransGen (Expr.Next C F scope) (e, s) n ∧ Expr.Makes C F scope n m

/-- The expression itself makes a move that does not fit. -/
def Expr.Overflows (n : Expr × σ) : Prop := ∃ m, Expr.Makes C F scope n m ∧ ¬ m.Fits C

variable {C F scope}

theorem evalAll_eq (es : List Expr) : evalAll C F scope es = es.mapM (eval C F scope) := by
  induction es with
  | nil => rw [evalAll, List.mapM_nil]
  | cons e es ih => rw [evalAll, List.mapM_cons, ih]

theorem evalAll_panics {es : List Expr} : (evalAll C F scope es).Panics s ↔
    ∃ before e after, es = before ++ e :: after ∧
      ∃ vs t, (evalAll C F scope before).Answers s vs t ∧ (eval C F scope e).Panics t := by
  simp only [evalAll_eq]
  exact Comp.mapM_panics

variable (C) in
/-- What an operator does with both sides. -/
def BinOp.finish (op : BinOp) (left right : Value) (r : Expr) : Comp σ Value :=
  if op = .and ∨ op = .or then pure (.bool (truthy right)) else binary C op left right r

variable (C F scope) in
/-- What an operator does after its left side. -/
def BinOp.afterLeft (op : BinOp) (r : Expr) (left : Value) : Comp σ Value :=
  if op.goesOn left then do
    let right ← eval C F scope r
    op.finish C left right r
  else pure (.bool (op == .or))

/-- The operators evaluate their left side, and the right one unless they stop at the left. -/
theorem eval_bin (op : BinOp) (l r : Expr) :
    eval C F scope (.bin op l r) = eval C F scope l >>= op.afterLeft C F scope r := by
  cases op with
  | and =>
    rw [eval]
    congr 1
    funext left
    have hgo : BinOp.and.goesOn left = truthy left := rfl
    unfold BinOp.afterLeft
    rw [hgo]
    cases truthy left <;> rfl
  | or =>
    rw [eval]
    congr 1
    funext left
    have hgo : BinOp.or.goesOn left = !truthy left := rfl
    unfold BinOp.afterLeft
    rw [hgo]
    cases truthy left <;> rfl
  | eq | ne | lt | le | gt | ge | add | sub | mul | div | mod =>
    rw [eval]
    · rfl
    · intro h
      cases h
    · intro h
      cases h

theorem finish_panics {op : BinOp} {left right : Value} {r : Expr} :
    (op.finish C left right r).Panics s ↔ (op = .add ∨ op = .sub) ∧ ∃ t secs,
      parseTime C left = some t ∧ r = .dur secs ∧ ¬ Shift.Fits C ⟨op, t, secs⟩ := by
  unfold BinOp.finish
  by_cases hshort : op = .and ∨ op = .or
  · rw [if_pos hshort]
    refine iff_of_false pure_panics ?_
    rintro ⟨hop, -⟩
    rcases hshort with rfl | rfl <;> simp at hop
  · rw [if_neg hshort]
    rw [not_or] at hshort
    exact binary_panics hshort.1 hshort.2

/-- A move that does not fit panics. -/
theorem panics_of_overflows (h : Expr.Overflows C F scope n) : (eval C F scope n.1).Panics n.2 := by
  obtain ⟨m, hmakes, hfits⟩ := h
  cases hmakes with
  | mk hop hleft htime =>
    rename_i op l secs s s' v t
    rw [eval_bin]
    refine bind_panics.mpr (.inr ⟨v, s', hleft, ?_⟩)
    have hgo : op.goesOn v = true := by
      rcases hop with rfl | rfl <;> rfl
    unfold BinOp.afterLeft
    rw [if_pos hgo, eval, pure_bind]
    exact finish_panics.mpr ⟨hop, t, secs, htime, rfl, hfits⟩

variable {m : Expr × σ}

/-- A panic below is one of the whole expression. -/
theorem panics_of_next (hnext : Expr.Next C F scope n m)
    (h : (eval C F scope m.1).Panics m.2) : (eval C F scope n.1).Panics n.2 := by
  cases hnext with
  | not =>
    rw [eval]
    exact bind_pure_panics.mpr h
  | neg =>
    rw [eval]
    exact bind_panics.mpr (.inl h)
  | left =>
    rw [eval_bin]
    exact bind_panics.mpr (.inl h)
  | right hleft hgo =>
    rw [eval_bin]
    refine bind_panics.mpr (.inr ⟨_, _, hleft, ?_⟩)
    unfold BinOp.afterLeft
    rw [if_pos hgo]
    exact bind_panics.mpr (.inl h)
  | first =>
    rw [eval]
    exact bind_panics.mpr (.inl h)
  | second hleft hnull =>
    rw [eval]
    refine bind_panics.mpr (.inr ⟨_, _, hleft, ?_⟩)
    rw [if_pos hnull]
    exact h
  | cond =>
    rw [eval]
    exact bind_panics.mpr (.inl h)
  | branch hcond =>
    rw [eval]
    refine bind_panics.mpr (.inr ⟨_, _, hcond, ?_⟩)
    rw [← apply_ite (eval C F scope)]
    exact h
  | item hbefore =>
    rw [eval]
    exact bind_pure_panics.mpr (evalAll_panics.mpr ⟨_, _, _, rfl, _, _, hbefore, h⟩)
  | needle =>
    rw [eval]
    exact bind_panics.mpr (.inl h)
  | hay hleft =>
    rw [eval]
    exact bind_panics.mpr (.inr ⟨_, _, hleft, bind_pure_panics.mpr h⟩)
  | receiver =>
    rw [eval]
    exact bind_panics.mpr (.inl h)
  | methodArg hobj hbefore =>
    rw [eval]
    refine bind_panics.mpr (.inr ⟨_, _, hobj, bind_panics.mpr (.inl ?_)⟩)
    exact evalAll_panics.mpr ⟨_, _, _, rfl, _, _, hbefore, h⟩
  | callArg hbefore =>
    rw [eval]
    exact bind_panics.mpr (.inl (evalAll_panics.mpr ⟨_, _, _, rfl, _, _, hbefore, h⟩))

/-- An expression that panics makes a move that does not fit, or goes on to one that panics. -/
theorem overflows_or_next (h : (eval C F scope n.1).Panics n.2) :
    Expr.Overflows C F scope n ∨
      ∃ m, Expr.Next C F scope n m ∧ (eval C F scope m.1).Panics m.2 := by
  obtain ⟨e, s⟩ := n
  cases e with
  | lit v =>
    rw [eval] at h
    exact absurd h pure_panics
  | dur secs =>
    rw [eval] at h
    exact absurd h pure_panics
  | now =>
    rw [eval] at h
    exact absurd h pure_panics
  | path root path =>
    rw [eval] at h
    exact absurd h (readPath_returns root path)
  | not e =>
    rw [eval] at h
    exact .inr ⟨_, .not, bind_pure_panics.mp h⟩
  | neg e =>
    rw [eval] at h
    rcases bind_panics.mp h with he | ⟨v, t, -, h⟩
    · exact .inr ⟨_, .neg, he⟩
    · exact absurd h (orFail_panics _ _)
  | bin op l r =>
    rw [eval_bin] at h
    rcases bind_panics.mp h with hl | ⟨v, t, hleft, h⟩
    · exact .inr ⟨_, .left, hl⟩
    · unfold BinOp.afterLeft at h
      split_ifs at h with hgo
      · rcases bind_panics.mp h with hr | ⟨w, t', hright, h⟩
        · exact .inr ⟨_, .right hleft hgo, hr⟩
        · obtain ⟨hop, i, secs, htime, rfl, hfits⟩ := finish_panics.mp h
          exact .inl ⟨_, .mk hop hleft htime, hfits⟩
      · exact absurd h pure_panics
  | coalesce l r =>
    rw [eval] at h
    rcases bind_panics.mp h with hl | ⟨v, t, hleft, h⟩
    · exact .inr ⟨_, .first, hl⟩
    · split_ifs at h with hnull
      · exact .inr ⟨_, .second hleft hnull, h⟩
      · exact absurd h pure_panics
  | ite c t e =>
    rw [eval] at h
    rcases bind_panics.mp h with hc | ⟨v, s', hcond, h⟩
    · exact .inr ⟨_, .cond, hc⟩
    · rw [← apply_ite (eval C F scope)] at h
      exact .inr ⟨_, .branch hcond, h⟩
  | array items =>
    rw [eval] at h
    obtain ⟨before, e, after, rfl, vs, t, hbefore, h⟩ := evalAll_panics.mp (bind_pure_panics.mp h)
    exact .inr ⟨_, .item hbefore, h⟩
  | mem l r negate =>
    rw [eval] at h
    rcases bind_panics.mp h with hl | ⟨v, t, hleft, h⟩
    · exact .inr ⟨_, .needle, hl⟩
    · exact .inr ⟨_, .hay hleft, bind_pure_panics.mp h⟩
  | method obj name args =>
    rw [eval] at h
    rcases bind_panics.mp h with hobj | ⟨v, t, hobj, h⟩
    · exact .inr ⟨_, .receiver, hobj⟩
    · rcases bind_panics.mp h with hargs | ⟨vs, t', -, h⟩
      · obtain ⟨before, e, after, rfl, vs, t', hbefore, h⟩ := evalAll_panics.mp hargs
        exact .inr ⟨_, .methodArg hobj hbefore, h⟩
      · exact absurd h (method_returns _ _ _)
  | call name args =>
    rw [eval] at h
    rcases bind_panics.mp h with hargs | ⟨vs, t', -, h⟩
    · obtain ⟨before, e, after, rfl, vs, t', hbefore, h⟩ := evalAll_panics.mp hargs
      exact .inr ⟨_, .callArg hbefore, h⟩
    · exact absurd h (callFunc_returns _ _)

theorem sizeOf_mem_append {α : Type} [SizeOf α] (before after : List α) (a : α) :
    sizeOf a < sizeOf (before ++ a :: after) :=
  List.sizeOf_lt_of_mem (List.mem_append_right _ List.mem_cons_self)

theorem Expr.Next.sizeOf_lt (h : Expr.Next C F scope n m) : sizeOf m.1 < sizeOf n.1 := by
  cases h with
  | not | neg | left | right | first | second | cond | needle | hay | receiver =>
    simp only [Expr.not.sizeOf_spec, Expr.neg.sizeOf_spec, Expr.bin.sizeOf_spec,
      Expr.coalesce.sizeOf_spec, Expr.ite.sizeOf_spec, Expr.mem.sizeOf_spec,
      Expr.method.sizeOf_spec]
    omega
  | branch =>
    simp only [Expr.ite.sizeOf_spec]
    split_ifs <;> omega
  | @item before after e =>
    have := sizeOf_mem_append before after e
    simp only [Expr.array.sizeOf_spec]
    omega
  | @methodArg obj e name before after =>
    have := sizeOf_mem_append before after e
    simp only [Expr.method.sizeOf_spec]
    omega
  | @callArg e name before after =>
    have := sizeOf_mem_append before after e
    simp only [Expr.call.sizeOf_spec]
    omega

theorem Expr.wf_next : WellFounded (Function.swap (Expr.Next (σ := σ) C F scope)) :=
  Subrelation.wf (fun h => Expr.Next.sizeOf_lt h) (measure fun n : Expr × σ => sizeOf n.1).wf

/-- The evaluation of an expression panics exactly if it comes to a move that does not fit. -/
theorem eval_panics {e : Expr} : (eval C F scope e).Panics s ↔
    ∃ m, Expr.Reaches C F scope e s m ∧ ¬ m.Fits C := by
  have hstep : ∀ n : Expr × σ, (eval C F scope n.1).Panics n.2 ↔
      Expr.Overflows C F scope n ∨
        ∃ m, Expr.Next C F scope n m ∧ (eval C F scope m.1).Panics m.2 := by
    intro n
    constructor
    · exact overflows_or_next
    · rintro (h | ⟨m, hnext, h⟩)
      · exact panics_of_overflows h
      · exact panics_of_next hnext h
  rw [panics_iff_reached Expr.wf_next hstep (e, s)]
  constructor
  · rintro ⟨n, hreach, m, hmakes, hfits⟩
    exact ⟨m, ⟨n, hreach, hmakes⟩, hfits⟩
  · rintro ⟨m, ⟨n, hreach, hmakes⟩, hfits⟩
    exact ⟨n, hreach, m, hmakes, hfits⟩

end Expressions

/-! ## Templates -/

section Templates

variable (C F scope)

/-- The rendering of a template comes to one of its holes, after the parts before it. -/
inductive Template.Hole (t : Template) (s : σ) : Expr × σ → Prop
  | mk {before after : List Part} {e : Expr} {out : String} {s' : σ}
      (ht : t = before ++ .expr e :: after)
      (hbefore : (before.foldlM (renderPart C F scope) "").Answers s out s') : Hole t s (e, s')

/-- The rendering of a template comes to the move. -/
def Template.Reaches (t : Template) (s : σ) (m : Shift Instant) : Prop :=
  ∃ n, Template.Hole C F scope t s n ∧ Expr.Reaches C F scope n.1 n.2 m

variable {C F scope} {t : Template}

theorem renderPart_panics {out : String} {p : Part} :
    (renderPart C F scope out p).Panics s ↔ ∃ e, p = .expr e ∧ (eval C F scope e).Panics s := by
  cases p with
  | text t =>
    refine iff_of_false pure_panics ?_
    rintro ⟨e, h, -⟩
    cases h
  | expr e =>
    unfold renderPart
    rw [bind_pure_panics]
    constructor
    · intro h
      exact ⟨e, rfl, h⟩
    · rintro ⟨e', h, he⟩
      cases h
      exact he

/-- One hole and a text with holes panic alike: at a hole. -/
theorem renderTemplate_panics_iff_parts :
    (renderTemplate C F scope t).Panics s ↔ (t.foldlM (renderPart C F scope) "").Panics s := by
  unfold renderTemplate
  split
  · rename_i e
    rw [List.foldlM_cons, bind_panics, renderPart_panics]
    constructor
    · intro h
      exact .inl ⟨e, rfl, h⟩
    · rintro (⟨e', h, he⟩ | ⟨out, s', -, h⟩)
      · cases h
        exact he
      · exact absurd h pure_panics
  · rw [bind_pure_panics]

theorem renderTemplate_panics : (renderTemplate C F scope t).Panics s ↔
    ∃ m, Template.Reaches C F scope t s m ∧ ¬ m.Fits C := by
  rw [renderTemplate_panics_iff_parts, Comp.foldlM_panics]
  constructor
  · rintro ⟨before, p, after, rfl, out, s', hbefore, h⟩
    obtain ⟨e, rfl, he⟩ := renderPart_panics.mp h
    obtain ⟨m, hreach, hfits⟩ := eval_panics.mp he
    exact ⟨m, ⟨(e, s'), .mk rfl hbefore, hreach⟩, hfits⟩
  · rintro ⟨m, ⟨n, ⟨rfl, hbefore⟩, hreach⟩, hfits⟩
    refine ⟨_, _, _, rfl, _, _, hbefore, renderPart_panics.mpr ⟨_, rfl, ?_⟩⟩
    exact eval_panics.mpr ⟨m, hreach, hfits⟩

end Templates

/-! ## Parameters and durations -/

section Parameters

variable (C F scope)

/-- The rendering of a parameter goes on to one below it, after the ones before it. -/
inductive Tpl.Next : Tpl × σ → Tpl × σ → Prop
  | entry {before after : List (String × Tpl)} {k : String} {t : Tpl} {s s' : σ}
      {fields : List (String × Value)}
      (hbefore : (renderEntries C F scope [] before).Answers s fields s') :
      Next (.map (before ++ (k, t) :: after), s) (t, s')
  | item {before after : List Tpl} {t : Tpl} {s s' : σ} {vs : List Value}
      (hbefore : (renderAll C F scope before).Answers s vs s') :
      Next (.list (before ++ t :: after), s) (t, s')

/-- The rendering of a parameter comes to the move, in one of its templates. -/
def Tpl.Reaches (t : Tpl) (s : σ) (m : Shift Instant) : Prop :=
  ∃ t' s', Relation.ReflTransGen (Tpl.Next C F scope) (t, s) (.template t', s') ∧
    Template.Reaches C F scope t' s' m

/-- The rendering of a duration comes to the move. -/
def Dur.Reaches : Dur → σ → Shift Instant → Prop
  | .secs _, _, _ => False
  | .tpl t, s, m => Template.Reaches C F scope t s m

/-- The parameter itself is a template that panics. -/
def Tpl.Breaks (n : Tpl × σ) : Prop :=
  ∃ t, n.1 = .template t ∧ (renderTemplate C F scope t).Panics n.2

variable {C F scope}

theorem renderAll_eq (ts : List Tpl) : renderAll C F scope ts = ts.mapM (render C F scope) := by
  induction ts with
  | nil => rw [renderAll, List.mapM_nil]
  | cons t ts ih => rw [renderAll, List.mapM_cons, ih]

theorem renderEntries_eq (fields : List (String × Value)) (entries : List (String × Tpl)) :
    renderEntries C F scope fields entries = entries.foldlM (fun fields entry => do
      let v ← render C F scope entry.2
      pure (Value.insertField fields entry.1 v)) fields := by
  induction entries generalizing fields with
  | nil =>
    rw [renderEntries]
    rfl
  | cons entry entries ih =>
    rw [renderEntries, List.foldlM_cons, bind_assoc]
    simp only [pure_bind, ih]

theorem render_list_panics {items : List Tpl} :
    (render C F scope (.list items)).Panics s ↔ ∃ before t after, items = before ++ t :: after ∧
      ∃ vs s', (renderAll C F scope before).Answers s vs s' ∧ (render C F scope t).Panics s' := by
  rw [render, bind_pure_panics]
  simp only [renderAll_eq]
  exact Comp.mapM_panics

theorem render_map_panics {entries : List (String × Tpl)} :
    (render C F scope (.map entries)).Panics s ↔
      ∃ before entry after, entries = before ++ entry :: after ∧
        ∃ fields s', (renderEntries C F scope [] before).Answers s fields s' ∧
          (render C F scope entry.2).Panics s' := by
  rw [render, bind_pure_panics]
  simp only [renderEntries_eq]
  rw [Comp.foldlM_panics]
  simp only [bind_pure_panics]

theorem render_step (n : Tpl × σ) : (render C F scope n.1).Panics n.2 ↔
    Tpl.Breaks C F scope n ∨ ∃ m, Tpl.Next C F scope n m ∧ (render C F scope m.1).Panics m.2 := by
  obtain ⟨t, s⟩ := n
  cases t with
  | lit v =>
    rw [render]
    refine iff_of_false pure_panics ?_
    rintro (⟨t, h, -⟩ | ⟨m, hnext, -⟩)
    · cases h
    · cases hnext
  | template t =>
    rw [render]
    constructor
    · intro h
      exact .inl ⟨t, rfl, h⟩
    · rintro (⟨t', h, ht⟩ | ⟨m, hnext, -⟩)
      · cases h
        exact ht
      · cases hnext
  | map entries =>
    rw [render_map_panics]
    constructor
    · rintro ⟨before, entry, after, rfl, fields, s', hbefore, h⟩
      exact .inr ⟨_, .entry hbefore, h⟩
    · rintro (⟨t, h, -⟩ | ⟨m, hnext, h⟩)
      · cases h
      · cases hnext with
        | entry hbefore => exact ⟨_, _, _, rfl, _, _, hbefore, h⟩
  | list items =>
    rw [render_list_panics]
    constructor
    · rintro ⟨before, t, after, rfl, vs, s', hbefore, h⟩
      exact .inr ⟨_, .item hbefore, h⟩
    · rintro (⟨t, h, -⟩ | ⟨m, hnext, h⟩)
      · cases h
      · cases hnext with
        | item hbefore => exact ⟨_, _, _, rfl, _, _, hbefore, h⟩

theorem Tpl.Next.sizeOf_lt {n m : Tpl × σ} (h : Tpl.Next C F scope n m) :
    sizeOf m.1 < sizeOf n.1 := by
  cases h with
  | @entry before after k t =>
    have := sizeOf_mem_append before after (k, t)
    simp only [Prod.mk.sizeOf_spec] at this
    simp only [Tpl.map.sizeOf_spec]
    omega
  | @item before after t =>
    have := sizeOf_mem_append before after t
    simp only [Tpl.list.sizeOf_spec]
    omega

theorem Tpl.wf_next : WellFounded (Function.swap (Tpl.Next (σ := σ) C F scope)) :=
  Subrelation.wf (fun h => Tpl.Next.sizeOf_lt h) (measure fun n : Tpl × σ => sizeOf n.1).wf

/-- The rendering of a parameter panics exactly if it comes to a move that does not fit. -/
theorem render_panics {t : Tpl} : (render C F scope t).Panics s ↔
    ∃ m, Tpl.Reaches C F scope t s m ∧ ¬ m.Fits C := by
  rw [panics_iff_reached Tpl.wf_next render_step (t, s)]
  constructor
  · rintro ⟨⟨t', s'⟩, hreach, t', rfl, h⟩
    obtain ⟨m, hm, hfits⟩ := renderTemplate_panics.mp h
    exact ⟨m, ⟨t', s', hreach, hm⟩, hfits⟩
  · rintro ⟨m, ⟨t', s', hreach, hm⟩, hfits⟩
    exact ⟨(.template t', s'), hreach, t', rfl, renderTemplate_panics.mpr ⟨m, hm, hfits⟩⟩

theorem renderDuration_panics {d : Dur} : (renderDuration C F scope d).Panics s ↔
    ∃ m, Dur.Reaches C F scope d s m ∧ ¬ m.Fits C := by
  cases d with
  | secs secs =>
    refine iff_of_false pure_panics ?_
    rintro ⟨m, h, -⟩
    exact h
  | tpl t =>
    unfold renderDuration Dur.Reaches
    rw [bind_panics, or_iff_left, renderTemplate_panics]
    rintro ⟨v, s', -, h⟩
    split at h
    · exact orFail_panics _ _ h
    · exact orFail_panics _ _ h
    · exact fail_panics _ h

end Parameters

/-! ## The literals of a tree -/

/-- The literal that an operator moves a time by, when its right side is one. -/
def BinOp.literal (op : BinOp) : Expr → List (BinOp × ℤ)
  | .dur secs => if op == .add || op == .sub then [(op, secs)] else []
  | _ => []

mutual
/-- The duration literals on the right of a `+` or a `-`. -/
def Expr.moves : Expr → List (BinOp × ℤ)
  | .lit _ | .dur _ | .now | .path _ _ => []
  | .not e | .neg e => e.moves
  | .bin op l r => op.literal r ++ (l.moves ++ r.moves)
  | .coalesce l r | .mem l r _ => l.moves ++ r.moves
  | .ite c t e => c.moves ++ (t.moves ++ e.moves)
  | .array items => movesAll items
  | .method obj _ args => obj.moves ++ movesAll args
  | .call _ args => movesAll args

def movesAll : List Expr → List (BinOp × ℤ)
  | [] => []
  | e :: es => e.moves ++ movesAll es
end

def Part.moves : Part → List (BinOp × ℤ)
  | .text _ => []
  | .expr e => e.moves

def Template.moves (t : Template) : List (BinOp × ℤ) := t.flatMap Part.moves

mutual
def Tpl.moves : Tpl → List (BinOp × ℤ)
  | .lit _ => []
  | .template t => Template.moves t
  | .map entries => entryMoves entries
  | .list items => itemMoves items

def entryMoves : List (String × Tpl) → List (BinOp × ℤ)
  | [] => []
  | (_, t) :: entries => t.moves ++ entryMoves entries

def itemMoves : List Tpl → List (BinOp × ℤ)
  | [] => []
  | t :: ts => t.moves ++ itemMoves ts
end

def Dur.moves : Dur → List (BinOp × ℤ)
  | .secs _ => []
  | .tpl t => Template.moves t

section Literals

variable {s : σ} {x : BinOp × ℤ} {m : Shift Instant} {t : Tpl} {e : Expr}

theorem mem_movesAll {before after : List Expr} (h : x ∈ e.moves) :
    x ∈ movesAll (before ++ e :: after) := by
  induction before with
  | nil => exact List.mem_append_left _ h
  | cons d before ih => exact List.mem_append_right _ ih

theorem mem_entryMoves {before after : List (String × Tpl)} {k : String}
    (h : x ∈ t.moves) : x ∈ entryMoves (before ++ (k, t) :: after) := by
  induction before with
  | nil => exact List.mem_append_left _ h
  | cons entry before ih => exact List.mem_append_right _ ih

theorem mem_itemMoves {before after : List Tpl} (h : x ∈ t.moves) :
    x ∈ itemMoves (before ++ t :: after) := by
  induction before with
  | nil => exact List.mem_append_left _ h
  | cons u before ih => exact List.mem_append_right _ ih

theorem Expr.Next.moves {m : Expr × σ} (h : Expr.Next C F scope n m) (hx : x ∈ m.1.moves) :
    x ∈ n.1.moves := by
  cases h with
  | not | neg => exact hx
  | left => exact List.mem_append_right _ (List.mem_append_left _ hx)
  | right => exact List.mem_append_right _ (List.mem_append_right _ hx)
  | first | needle | receiver => exact List.mem_append_left _ hx
  | second | hay => exact List.mem_append_right _ hx
  | cond => exact List.mem_append_left _ hx
  | branch =>
    refine List.mem_append_right _ ?_
    split_ifs at hx
    · exact List.mem_append_left _ hx
    · exact List.mem_append_right _ hx
  | item | callArg => exact mem_movesAll hx
  | methodArg => exact List.mem_append_right _ (mem_movesAll hx)

theorem Expr.Makes.mem_moves (h : Expr.Makes C F scope n m) : (m.op, m.secs) ∈ n.1.moves := by
  cases h with
  | mk hop =>
    refine List.mem_append_left _ ?_
    rcases hop with rfl | rfl <;> exact List.mem_singleton_self _

/-- The moves an evaluation comes to are by literals of the tree. -/
theorem Expr.Reaches.mem_moves (h : Expr.Reaches C F scope e s m) : (m.op, m.secs) ∈ e.moves := by
  obtain ⟨n, hreach, hmakes⟩ := h
  have hbelow : ∀ a : Expr × σ, Relation.ReflTransGen (Expr.Next C F scope) a n →
      (m.op, m.secs) ∈ a.1.moves := by
    intro a ha
    induction ha using Relation.ReflTransGen.head_induction_on with
    | refl => exact hmakes.mem_moves
    | head hnext _ ih => exact hnext.moves ih
  exact hbelow _ hreach

theorem Template.Reaches.mem_moves {t : Template} (h : Template.Reaches C F scope t s m) :
    (m.op, m.secs) ∈ Template.moves t := by
  obtain ⟨n, ⟨rfl, -⟩, hreach⟩ := h
  exact List.mem_flatMap.mpr ⟨_, List.mem_append_right _ List.mem_cons_self, hreach.mem_moves⟩

theorem Tpl.Next.moves {n m : Tpl × σ} (h : Tpl.Next C F scope n m) (hx : x ∈ m.1.moves) :
    x ∈ n.1.moves := by
  cases h with
  | entry => exact mem_entryMoves hx
  | item => exact mem_itemMoves hx

theorem Tpl.Reaches.mem_moves (h : Tpl.Reaches C F scope t s m) : (m.op, m.secs) ∈ t.moves := by
  obtain ⟨t', s', hreach, hm⟩ := h
  have hbelow : ∀ a : Tpl × σ, Relation.ReflTransGen (Tpl.Next C F scope) a (.template t', s') →
      (m.op, m.secs) ∈ a.1.moves := by
    intro a ha
    induction ha using Relation.ReflTransGen.head_induction_on with
    | refl => exact hm.mem_moves
    | head hnext _ ih => exact hnext.moves ih
  exact hbelow _ hreach

theorem Dur.Reaches.mem_moves {d : Dur} (h : Dur.Reaches C F scope d s m) :
    (m.op, m.secs) ∈ d.moves := by
  cases d with
  | secs secs => exact h.elim
  | tpl t => exact Template.Reaches.mem_moves h

theorem Expr.Makes.parsed (h : Expr.Makes C F scope n m) :
    (m.op = .add ∨ m.op = .sub) ∧ ∃ text, C.parseRfc3339 text = some m.time := by
  cases h with
  | mk hop _ htime =>
    obtain ⟨text, -, hparse⟩ := Option.bind_eq_some_iff.mp htime
    exact ⟨hop, text, hparse⟩

theorem Expr.Reaches.parsed (h : Expr.Reaches C F scope e s m) :
    (m.op = .add ∨ m.op = .sub) ∧ ∃ text, C.parseRfc3339 text = some m.time := by
  obtain ⟨n, -, hmakes⟩ := h
  exact hmakes.parsed

theorem Template.Reaches.parsed {t : Template} (h : Template.Reaches C F scope t s m) :
    (m.op = .add ∨ m.op = .sub) ∧ ∃ text, C.parseRfc3339 text = some m.time := by
  obtain ⟨n, -, hreach⟩ := h
  exact hreach.parsed

theorem Tpl.Reaches.parsed (h : Tpl.Reaches C F scope t s m) :
    (m.op = .add ∨ m.op = .sub) ∧ ∃ text, C.parseRfc3339 text = some m.time := by
  obtain ⟨t', s', -, hm⟩ := h
  exact hm.parsed

theorem Dur.Reaches.parsed {d : Dur} (h : Dur.Reaches C F scope d s m) :
    (m.op = .add ∨ m.op = .sub) ∧ ∃ text, C.parseRfc3339 text = some m.time := by
  cases d with
  | secs secs => exact h.elim
  | tpl t => exact Template.Reaches.parsed h

end Literals

/-! ## The theorem -/

variable (C) in
/-- Every time a text can stand for can be moved by the literal. -/
def Movable (x : BinOp × ℤ) : Prop :=
  (x.1 = .add ∨ x.1 = .sub) → ∀ text t, C.parseRfc3339 text = some t →
    Shift.Fits C ⟨x.1, t, x.2⟩

/-- The ranges chrono documents, in seconds: RFC 3339 has the years 0 to 9999 and offsets of less than
a day, and `+` answers within the years -262143 to 262142. -/
structure Chrono.Documented (C : Chrono Instant) (second : Instant → ℤ) : Prop where
  parsed : ∀ text t, C.parseRfc3339 text = some t →
    -62167305540 ≤ second t ∧ second t ≤ 253402387139
  inRange : ∀ t d, -8334601228800 ≤ second t + d → second t + d ≤ 8210266876799 →
    (C.checkedAdd t d).isSome

section Static

variable {s : σ} {allowed : BinOp × ℤ → Prop} {x : BinOp × ℤ}

theorem Movable.fits (h : ∀ x, allowed x → Movable C x) {m : Shift Instant}
    (hmem : allowed (m.op, m.secs))
    (hparsed : (m.op = .add ∨ m.op = .sub) ∧ ∃ text, C.parseRfc3339 text = some m.time) :
    m.Fits C := by
  obtain ⟨hop, text, hparse⟩ := hparsed
  exact h _ hmem hop text m.time hparse

theorem returns_iff_fits {α : Type} {x : Comp σ α} {reaches : Shift Instant → Prop}
    (h : x.Panics s ↔ ∃ m, reaches m ∧ ¬ m.Fits C) :
    x.Returns s ↔ ∀ m, reaches m → m.Fits C := by
  rw [Comp.returns_iff, h, not_exists]
  exact forall_congr' fun m => by rw [not_and, not_not]

section

variable (h : ∀ x, allowed x → Movable C x)
include h

/-- A tree whose literals can all move every time returns, in every scope. -/
theorem eval_returns {e : Expr}
    (he : ∀ x ∈ e.moves, allowed x) : (eval C F scope e).Returns s :=
  (returns_iff_fits eval_panics).mpr fun _ hm => Movable.fits h (he _ hm.mem_moves) hm.parsed

theorem renderTemplate_returns {t : Template}
    (ht : ∀ x ∈ Template.moves t, allowed x) : (renderTemplate C F scope t).Returns s :=
  (returns_iff_fits renderTemplate_panics).mpr fun _ hm =>
    Movable.fits h (ht _ hm.mem_moves) hm.parsed

theorem render_returns {t : Tpl}
    (ht : ∀ x ∈ t.moves, allowed x) : (render C F scope t).Returns s :=
  (returns_iff_fits render_panics).mpr fun _ hm => Movable.fits h (ht _ hm.mem_moves) hm.parsed

theorem renderDuration_returns {d : Dur}
    (hd : ∀ x ∈ d.moves, allowed x) : (renderDuration C F scope d).Returns s :=
  (returns_iff_fits renderDuration_panics).mpr fun _ hm =>
    Movable.fits h (hd _ hm.mem_moves) hm.parsed

end

/-- A scope whose context is a text. -/
def Scope.ofText (text : String) : Scope where
  context := .str text
  event := .null
  result := .null
  error := .null
  config := .null
  completed := []
  now := 0

/-- A literal that some time cannot be moved by panics on that time, read from the context. -/
theorem movable_of_returns
    (h : ∀ text, (eval C F (.ofText text) (.bin x.1 (.path .context []) (.dur x.2))).Returns s) :
    Movable C x := by
  intro hop text t hparse
  refine (returns_iff_fits eval_panics).mp (h text) ⟨x.1, t, x.2⟩ ⟨_, .refl, ?_⟩
  have hcontext : (eval C F (.ofText text) (.path .context [])).Answers s (.str text) s := by
    rw [eval]
    rfl
  exact .mk hop hcontext hparse

theorem moves_of_context (hop : x.1 = .add ∨ x.1 = .sub) :
    (Expr.bin x.1 (.path .context []) (.dur x.2)).moves = [x] := by
  obtain ⟨op, secs⟩ := x
  rcases hop with rfl | rfl <;> rfl

end Static

/-- An evaluation, a rendering and the reading of a duration return a value or an error exactly if
each time they come to move by a duration literal can be moved by it. Told by the literals alone: the
trees whose moves have certain literals all return, in every scope, exactly if every time that a text
stands for can be moved by each of these literals. -/
theorem evaluation_returns (C : Chrono Instant) (F : Funcs σ) (s : σ) :
    (∀ scope : Scope,
      (∀ e, (eval C F scope e).Returns s ↔ ∀ m, Expr.Reaches C F scope e s m → m.Fits C) ∧
      (∀ t, (renderTemplate C F scope t).Returns s ↔
        ∀ m, Template.Reaches C F scope t s m → m.Fits C) ∧
      (∀ t, (render C F scope t).Returns s ↔ ∀ m, Tpl.Reaches C F scope t s m → m.Fits C) ∧
      ∀ d, (renderDuration C F scope d).Returns s ↔
        ∀ m, Dur.Reaches C F scope d s m → m.Fits C) ∧
    ∀ allowed : BinOp × ℤ → Prop,
      (∀ scope : Scope,
        (∀ e : Expr, (∀ x ∈ e.moves, allowed x) → (eval C F scope e).Returns s) ∧
        (∀ t : Template, (∀ x ∈ Template.moves t, allowed x) →
          (renderTemplate C F scope t).Returns s) ∧
        (∀ t : Tpl, (∀ x ∈ t.moves, allowed x) → (render C F scope t).Returns s) ∧
        ∀ d : Dur, (∀ x ∈ d.moves, allowed x) → (renderDuration C F scope d).Returns s) ↔
      ∀ x, allowed x → Movable C x := by
  constructor
  · intro scope
    exact ⟨fun e => returns_iff_fits eval_panics, fun t => returns_iff_fits renderTemplate_panics,
      fun t => returns_iff_fits render_panics, fun d => returns_iff_fits renderDuration_panics⟩
  intro allowed
  constructor
  · intro h x hx hop
    refine movable_of_returns (fun text => (h _).1 _ ?_) hop
    rw [moves_of_context hop]
    intro y hy
    rw [List.mem_singleton.mp hy]
    exact hx
  · intro h scope
    exact ⟨fun e he => eval_returns h he, fun t ht => renderTemplate_returns h ht,
      fun t ht => render_returns h ht, fun d hd => renderDuration_returns h hd⟩

/-! ### A time of the first seconds of 1970, moved by the largest literal -/

/-- Instants as seconds in chrono's range, with the texts of the first ten. -/
def firstSeconds : Chrono ℤ where
  ofMicros t := t / 1000000
  parseRfc3339 text :=
    ((List.range 10).find? fun n => text == "1970-01-01T00:00:0" ++ toString n ++ ".000000Z").map
      Int.ofNat
  toRfc3339 t := "1970-01-01T00:00:0" ++ toString t ++ ".000000Z"
  cmp := compare
  checkedAdd t d :=
    if -8334601228800 ≤ t + d && t + d ≤ 8210266876799 then some (t + d) else none

/-- A workflow that declares no function. -/
def noFuncs : Funcs Unit where
  floatText _ := "1.5"
  newV4 _ := ("00000000-0000-4000-8000-000000000000", ())
  call name _ _ := .error ("function `" ++ name ++ "` is not declared")

/-- `now() + d` with the largest duration literal. -/
def farFuture : Expr := .bin .add .now (.dur (i64Bound - 1))

theorem farFuture_panics :
    ¬ ∀ (e : Expr) (scope : Scope), (eval firstSeconds noFuncs scope e).Returns () := by
  intro h
  have hpanics : (eval firstSeconds noFuncs (.ofText "") farFuture).Panics () := by
    decide +kernel
  exact Comp.returns_iff.mp (h farFuture _) hpanics

/-! ## The engine's evaluator -/

/-- The engine's environment answers as the evaluator does from some state, on every tree that has
certain literals only. -/
structure Env.Evaluates (env : Env) (C : Chrono Instant) (F : Funcs σ)
    (allowed : BinOp × ℤ → Prop) : Prop where
  eval : ∀ site (e : Expr) scope, (∀ x ∈ e.moves, allowed x) →
    ∃ s, (Workflow.eval C F scope e).answer? s = some (env.eval site e scope)
  render : ∀ site (t : Tpl) scope, (∀ x ∈ t.moves, allowed x) →
    ∃ s, (Workflow.render C F scope t).answer? s = some (env.render site t scope)
  renderDuration : ∀ site (d : Dur) scope, (∀ x ∈ d.moves, allowed x) →
    ∃ s, (Workflow.renderDuration C F scope d).answer? s = some (env.renderDuration site d scope)

/-- The engine's environments always answer; with literals that can move every time, the evaluator is
one of them. -/
theorem exists_evaluates (env : Env) (s : σ) {allowed : BinOp × ℤ → Prop}
    (h : ∀ x, allowed x → Movable C x) : ∃ env' : Env, env'.Evaluates C F allowed := by
  refine ⟨{ env with
    eval := fun _ e scope => ((eval C F scope e).answer? s).getD (.error "")
    render := fun _ t scope => ((render C F scope t).answer? s).getD (.error "")
    renderDuration := fun _ d scope => ((renderDuration C F scope d).answer? s).getD (.error "") },
    ?_⟩
  constructor
  case eval => exact fun site e scope he => ⟨s, (Comp.answer?_getD (eval_returns h he) _).symm⟩
  case render => exact fun site t scope ht => ⟨s, (Comp.answer?_getD (render_returns h ht) _).symm⟩
  case renderDuration =>
    exact fun site d scope hd => ⟨s, (Comp.answer?_getD (renderDuration_returns h hd) _).symm⟩

end Backbone.Workflow
