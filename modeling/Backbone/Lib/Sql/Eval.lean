import Mathlib.Data.List.Forall2
import Backbone.Lib.Sql.Chain

/-!
# What a condition means

SQL's three truth values, and the rows a condition holds of under given parameters. What an atom
means is left open (`Meaning`): it is a function of the atom's tokens with every placeholder replaced
by the value bound to it. A placeholder without a value, an unreadable operand or an atom without a
meaning make the whole statement fail, so no row satisfies it.
-/

namespace Backbone.Sql

variable {α : Type*} {P : α → Prop} {e : Cond} {ps : List String} {ts : List (Tok ℕ)}

/-- SQL's truth values. -/
inductive Truth where
  | yes
  | no
  | unknown
deriving DecidableEq, Repr

namespace Truth

def and : Truth → Truth → Truth
  | yes, b => b
  | no, _ => no
  | unknown, no => no
  | unknown, _ => unknown

def or : Truth → Truth → Truth
  | yes, _ => yes
  | no, b => b
  | unknown, yes => yes
  | unknown, _ => unknown

@[simp] theorem and_eq_yes {a b : Truth} : a.and b = yes ↔ a = yes ∧ b = yes := by
  cases a <;> cases b <;> decide

@[simp] theorem or_eq_yes {a b : Truth} : a.or b = yes ↔ a = yes ∨ b = yes := by
  cases a <;> cases b <;> decide

end Truth

variable {ρ : Type*} {β : Type*} {Q : β → Prop}

/-- What the atoms mean on rows; nothing when the tokens are no atom. -/
abbrev Meaning (ρ : Type*) := List (Tok String) → Option (ρ → Truth)

/-- A token with the `n`-th parameter for the placeholder `$n`. -/
def resolve (ps : List String) : Tok ℕ → Option (Tok String)
  | .word w => some (.word w)
  | .sym o => some (.sym o)
  | .str s => some (.str s)
  | .ident s => some (.ident s)
  | .hole n => if n = 0 then none else ps[n - 1]?.map .hole
  | .opening b => some (.opening b)
  | .closing b => some (.closing b)
  | .comma => some .comma
  | .semi => some .semi

/-- The meaning of a condition under parameters. -/
def Cond.eval (M : Meaning ρ) (ps : List String) : Cond → Option (ρ → Truth)
  | atom ts => (ts.mapM (resolve ps)).bind M
  | and a b => (a.eval M ps).bind fun f => (b.eval M ps).map fun g r => (f r).and (g r)
  | or a b => (a.eval M ps).bind fun f => (b.eval M ps).map fun g r => (f r).or (g r)

/-- Can the condition be evaluated at all? -/
def valid (M : Meaning ρ) (ps : List String) (v : Option Cond) : Bool :=
  (v.bind (Cond.eval M ps)).isSome

/-- Does the row satisfy the condition? -/
def holds (M : Meaning ρ) (ps : List String) (v : Option Cond) (r : ρ) : Bool :=
  (v.bind (Cond.eval M ps)).any fun f => f r = .yes

section Holds

variable {M : Meaning ρ} {ps : List String} {r : ρ} {a b : Cond}

theorem valid_of_holds {v : Option Cond} (h : holds M ps v r) : valid M ps v := by
  unfold holds at h
  unfold valid
  cases hv : v.bind (Cond.eval M ps) with
  | none => simp [hv] at h
  | some f => rfl

theorem not_valid_none : valid M ps none = false := rfl

theorem valid_and : valid M ps (some (.and a b)) ↔ valid M ps (some a) ∧ valid M ps (some b) := by
  simp only [valid, Option.bind_some, Cond.eval]
  cases a.eval M ps <;> cases b.eval M ps <;> simp

theorem valid_or : valid M ps (some (.or a b)) ↔ valid M ps (some a) ∧ valid M ps (some b) := by
  simp only [valid, Option.bind_some, Cond.eval]
  cases a.eval M ps <;> cases b.eval M ps <;> simp

theorem holds_and :
    holds M ps (some (.and a b)) r ↔ holds M ps (some a) r ∧ holds M ps (some b) r := by
  simp only [holds, Option.bind_some, Cond.eval]
  cases a.eval M ps <;> cases b.eval M ps <;> simp

theorem holds_or :
    holds M ps (some (.or a b)) r ↔
      (valid M ps (some a) ∧ valid M ps (some b)) ∧
        (holds M ps (some a) r ∨ holds M ps (some b) r) := by
  simp only [holds, valid, Option.bind_some, Cond.eval]
  cases a.eval M ps <;> cases b.eval M ps <;> simp

end Holds

/-! ## Chains -/

/-- A chain cut at its ORs: its first run of conjuncts, and the others. -/
def andRuns {α : Type*} (a : α) : List (Link × α) → List α × List (List α)
  | [] => ([a], [])
  | (.and, b) :: rest => (a :: (andRuns b rest).1, (andRuns b rest).2)
  | (.or, b) :: rest => ([a], (andRuns b rest).1 :: (andRuns b rest).2)

/-- Some run of a chain's conjuncts holds as a whole. AND binds tighter than OR. -/
def SomeRun {α : Type*} (P : α → Prop) (a : α) (rest : List (Link × α)) : Prop :=
  (∀ x ∈ (andRuns a rest).1, P x) ∨ ∃ run ∈ (andRuns a rest).2, ∀ x ∈ run, P x

/-- ANDs with ORs behind them: the conjuncts are one run, and each of the others is one. -/
theorem andRuns_append (a : α) (conjuncts others : List α) :
    andRuns a (conjuncts.map (fun x => (Link.and, x)) ++ others.map fun x => (Link.or, x)) =
      (a :: conjuncts, others.map fun x => [x]) := by
  induction conjuncts generalizing a with
  | nil =>
    induction others generalizing a with
    | nil => rfl
    | cons b others ih =>
      have hothers := ih b
      simp only [List.map_nil, List.nil_append, List.map_cons, andRuns] at hothers ⊢
      rw [hothers]
  | cons b conjuncts ih =>
    rw [List.map_cons, List.cons_append, andRuns, ih]

/-- Of ANDs with ORs behind them, all the conjuncts hold or one of the others does. -/
theorem someRun_append (a : α) (conjuncts others : List α) :
    SomeRun P a (conjuncts.map (fun x => (Link.and, x)) ++ others.map fun x => (Link.or, x)) ↔
      (P a ∧ ∀ x ∈ conjuncts, P x) ∨ ∃ x ∈ others, P x := by
  simp [SomeRun, andRuns_append]

/-- A chain of ANDs is one run. -/
theorem someRun_and (a : α) (rest : List α) :
    SomeRun P a (rest.map fun x => (Link.and, x)) ↔ P a ∧ ∀ x ∈ rest, P x := by
  simpa using someRun_append (P := P) a rest []

/-- A chain of ORs has a run for each operand. -/
theorem someRun_or (a : α) (rest : List α) :
    SomeRun P a (rest.map fun x => (Link.or, x)) ↔ P a ∨ ∃ x ∈ rest, P x := by
  simpa using someRun_append (P := P) a [] rest

/-- A chain evaluates when all its operands do, and holds when some run of its conjuncts does. -/
def ChainHolds {α : Type*} (V P : α → Prop) (a : α) (rest : List (Link × α)) : Prop :=
  (V a ∧ ∀ p ∈ rest, V p.2) ∧ SomeRun P a rest

theorem forall_mem_congr {as : List α} {bs : List β}
    (h : List.Forall₂ (fun x y => P x ↔ Q y) as bs) : (∀ x ∈ as, P x) ↔ ∀ y ∈ bs, Q y := by
  induction h with
  | nil => simp
  | cons hxy _ ih => simp only [List.forall_mem_cons, hxy, ih]

/-- Chains whose operands agree one by one agree. -/
theorem chainHolds_congr {V : α → Prop} {W : β → Prop} {a : α} {b : β}
    {as : List (Link × α)} {bs : List (Link × β)} (hab : (V a ↔ W b) ∧ (P a ↔ Q b))
    (h : List.Forall₂ (fun x y => x.1 = y.1 ∧ (V x.2 ↔ W y.2) ∧ (P x.2 ↔ Q y.2)) as bs) :
    ChainHolds V P a as ↔ ChainHolds W Q b bs := by
  have hvalid : (∀ p ∈ as, V p.2) ↔ ∀ p ∈ bs, W p.2 :=
    forall_mem_congr (h.imp fun _ _ hxy => hxy.2.1)
  have hruns : ((∀ x ∈ (andRuns a as).1, P x) ↔ ∀ y ∈ (andRuns b bs).1, Q y) ∧
      ((∃ run ∈ (andRuns a as).2, ∀ x ∈ run, P x) ↔ ∃ run ∈ (andRuns b bs).2, ∀ y ∈ run, Q y) := by
    clear hvalid
    induction h generalizing a b with
    | nil => simpa [andRuns] using hab.2
    | @cons x y _ _ hxy _ ih =>
      obtain ⟨l, x⟩ := x
      obtain ⟨l', y⟩ := y
      obtain ⟨rfl, hxy⟩ := hxy
      obtain ⟨hfirst, hothers⟩ := ih hxy
      cases l with
      | and =>
        simp only [andRuns, List.forall_mem_cons, hab.2, hfirst, hothers]
        exact ⟨trivial, trivial⟩
      | or =>
        simp only [andRuns, List.forall_mem_cons, List.exists_mem_cons_iff, hab.2, hfirst, hothers,
          List.not_mem_nil, IsEmpty.forall_iff, implies_true]
        exact ⟨trivial, trivial⟩
  rw [ChainHolds, ChainHolds, SomeRun, SomeRun, hab.1, hvalid, hruns.1, hruns.2]

section ChainHolds

variable {M : Meaning ρ} {ps : List String} {r : ρ}
  {v : Option Cond} {rest : List (Link × Option Cond)} {c d : Option Cond}

theorem holds_andElse :
    holds M ps (some (andElse c e)) r ↔
      (∀ x ∈ c, holds M ps (some x) r) ∧ holds M ps (some e) r := by
  cases c <;> simp [andElse, holds_and]

theorem valid_andElse :
    valid M ps (some (andElse c e)) ↔ (∀ x ∈ c, valid M ps (some x)) ∧ valid M ps (some e) := by
  cases c <;> simp [andElse, valid_and]

theorem holds_orElse :
    holds M ps (some (orElse d e)) r ↔
      ((∀ x ∈ d, valid M ps (some x)) ∧ valid M ps (some e)) ∧
        ((∃ x ∈ d, holds M ps (some x) r) ∨ holds M ps (some e) r) := by
  cases d with
  | none => simpa [orElse] using valid_of_holds
  | some x => simp [orElse, holds_or]

theorem valid_orElse :
    valid M ps (some (orElse d e)) ↔ (∀ x ∈ d, valid M ps (some x)) ∧ valid M ps (some e) := by
  cases d <;> simp [orElse, valid_or]

/-- The reading of a chain, under disjuncts and conjuncts already read. -/
theorem holds_chainFrom (d c v : Option Cond) (rest : List (Link × Option Cond)) :
    holds M ps (chainFrom d c v rest) r ↔
      ((∀ x ∈ d, valid M ps (some x)) ∧ (∀ x ∈ c, valid M ps (some x)) ∧ valid M ps v ∧
        ∀ p ∈ rest, valid M ps p.2) ∧
      ((∃ x ∈ d, holds M ps (some x) r) ∨
        ((∀ x ∈ c, holds M ps (some x) r) ∧ ∀ x ∈ (andRuns v rest).1, holds M ps x r) ∨
        ∃ run ∈ (andRuns v rest).2, ∀ x ∈ run, holds M ps x r) := by
  induction rest generalizing d c v with
  | nil =>
    cases v with
    | none => simp [chainFrom, holds, not_valid_none]
    | some e =>
      simp [chainFrom, andRuns, holds_orElse, valid_andElse, holds_andElse, and_assoc]
  | cons p rest ih =>
    obtain ⟨l, w⟩ := p
    cases v with
    | none => cases l <;> simp [chainFrom, holds, not_valid_none]
    | some e =>
      cases l with
      | and =>
        simp only [chainFrom, Option.bind_some, ih, andRuns, List.forall_mem_cons,
          Option.mem_some_iff, forall_eq', valid_andElse, holds_andElse, and_assoc]
      | or =>
        simp only [chainFrom, Option.bind_some, ih, andRuns, List.forall_mem_cons,
          Option.mem_some_iff, forall_eq', exists_eq_left', valid_orElse, valid_andElse,
          holds_orElse, holds_andElse, and_assoc, Option.not_mem_none, IsEmpty.forall_iff,
          implies_true, true_and, List.exists_mem_cons_iff, List.not_mem_nil, and_true]
        refine and_congr_right fun hd => and_congr_right fun hc => and_congr_right fun he => ?_
        rw [and_iff_right hd, and_iff_right hc, and_iff_right he, or_assoc]

/-- A chain holds of a row as its operands say. -/
theorem holds_chainValue :
    holds M ps (chainValue v rest) r ↔
      ChainHolds (fun v => valid M ps v) (fun v => holds M ps v r) v rest := by
  rw [chainValue, holds_chainFrom]
  simp [ChainHolds, SomeRun]

/-- A chain evaluates when all its operands do. -/
theorem valid_chainValue :
    valid M ps (chainValue v rest) ↔ valid M ps v ∧ ∀ p ∈ rest, valid M ps p.2 := by
  have key (d c : Option Cond) : valid M ps (chainFrom d c v rest) ↔
      (∀ x ∈ d, valid M ps (some x)) ∧ (∀ x ∈ c, valid M ps (some x)) ∧ valid M ps v ∧
        ∀ p ∈ rest, valid M ps p.2 := by
    induction rest generalizing d c v with
    | nil =>
      cases v with
      | none => simp [chainFrom, not_valid_none]
      | some e => simp [chainFrom, valid_orElse, valid_andElse]
    | cons p rest ih =>
      obtain ⟨l, w⟩ := p
      cases v with
      | none => cases l <;> simp [chainFrom, not_valid_none]
      | some e =>
        cases l <;>
          simp only [chainFrom, Option.bind_some, ih, List.forall_mem_cons, Option.mem_some_iff,
            forall_eq', valid_orElse, valid_andElse, and_assoc, Option.not_mem_none,
            IsEmpty.forall_iff, implies_true, true_and]
  simpa [chainValue] using key none none

/-- A chain of ANDs holds when all its operands do. -/
theorem holds_chainValue_and {rest : List (Option Cond)} :
    holds M ps (chainValue v (rest.map fun w => (Link.and, w))) r ↔
      holds M ps v r ∧ ∀ w ∈ rest, holds M ps w r := by
  rw [holds_chainValue, ChainHolds, someRun_and, and_iff_right_iff_imp]
  rintro ⟨hv, hrest⟩
  refine ⟨valid_of_holds hv, fun p hp => ?_⟩
  obtain ⟨w, hw, rfl⟩ := List.mem_map.mp hp
  exact valid_of_holds (hrest w hw)

end ChainHolds

/-! ## Clauses -/

/-- The rows a WHERE clause selects. No clause selects every row. -/
def selects (M : Meaning ρ) (ps : List String) (clause : String) (r : ρ) : Bool :=
  match tokens clause.toList with
  | some [] => true
  | some (.word w :: ts) => w.map Char.toLower == "where".toList && holds M ps (parse ts) r
  | _ => false

variable {M : Meaning ρ} {r : ρ}

theorem selects_empty : selects M ps "" r = true := rfl

/-- A condition behind WHERE. -/
theorem selects_where {s : String} (h : Lexes s.toList ts) :
    selects M ps (" WHERE " ++ s) r = holds M ps (read s) r := by
  have hwhere : Lexes "WHERE".toList [.word "WHERE".toList] := rfl
  have hall : Lexes (" WHERE " ++ s).toList (.word "WHERE".toList :: ts) := by
    simpa using lexes_nil.space (hwhere.space h)
  rw [selects, hall, read_of_lexes h]
  simp

/-- Can a clause be evaluated at all? One that cannot fails its statement. -/
def evaluates (M : Meaning ρ) (ps : List String) (clause : String) : Bool :=
  match tokens clause.toList with
  | some [] => true
  | some (.word w :: ts) => w.map Char.toLower == "where".toList && valid M ps (parse ts)
  | _ => false

/-- Every atom that has a meaning is true. -/
def Meaning.always (M : Meaning ρ) : Meaning Unit := fun ts => (M ts).map fun _ _ => .yes

theorem eval_always (M : Meaning ρ) (ps : List String) (e : Cond) :
    e.eval M.always ps = (e.eval M ps).map fun _ _ => .yes := by
  induction e with
  | atom ts =>
    simp only [Cond.eval]
    cases ts.mapM (resolve ps) <;> rfl
  | and a b iha ihb =>
    simp only [Cond.eval, iha, ihb]
    cases a.eval M ps <;> cases b.eval M ps <;> rfl
  | or a b iha ihb =>
    simp only [Cond.eval, iha, ihb]
    cases a.eval M ps <;> cases b.eval M ps <;> rfl

/-- A condition evaluates when it holds with every atom true. -/
theorem holds_always (M : Meaning ρ) (ps : List String) (v : Option Cond) :
    holds M.always ps v () = valid M ps v := by
  cases v with
  | none => rfl
  | some e =>
    simp only [holds, valid, Option.bind_some, eval_always]
    cases e.eval M ps <;> rfl

theorem valid_always (M : Meaning ρ) (ps : List String) (v : Option Cond) :
    valid M.always ps v = valid M ps v := by
  cases v with
  | none => rfl
  | some e => simp [valid, eval_always]

theorem evaluates_eq (M : Meaning ρ) (ps : List String) (clause : String) :
    evaluates M ps clause = selects M.always ps clause () := by
  unfold evaluates selects
  split <;> simp [holds_always]

/-! ## Numbering the placeholders -/

/-- The token with its placeholder `k` places further on. -/
def Tok.shift (k : ℕ) : Tok ℕ → Tok ℕ
  | .hole n => .hole (n + k)
  | t => t

/-- The condition with its placeholders `k` places further on. -/
def Cond.shift (k : ℕ) : Cond → Cond
  | atom ts => atom (ts.map (Tok.shift k))
  | and a b => and (a.shift k) (b.shift k)
  | or a b => or (a.shift k) (b.shift k)

/-- The placeholders among tokens. -/
def holes (ts : List (Tok ℕ)) : List ℕ :=
  ts.filterMap fun t => match t with
    | .hole n => some n
    | _ => none

/-- The placeholders of a condition. -/
def Cond.holes : Cond → List ℕ
  | atom ts => Sql.holes ts
  | and a b => a.holes ++ b.holes
  | or a b => a.holes ++ b.holes

@[simp] theorem holes_append (ts us : List (Tok ℕ)) : holes (ts ++ us) = holes ts ++ holes us := by
  simp [holes]

@[simp] theorem holes_nil : holes [] = [] := rfl

theorem holes_cons (t : Tok ℕ) (ts : List (Tok ℕ)) : holes (t :: ts) = holes [t] ++ holes ts := by
  rw [← holes_append, List.singleton_append]

theorem shift_of_holes (h : holes ts = []) (k : ℕ) : ts.map (Tok.shift k) = ts := by
  induction ts with
  | nil => rfl
  | cons t ts ih =>
    rw [holes_cons, List.append_eq_nil_iff] at h
    rw [List.map_cons, ih h.2]
    cases t with
    | hole n => simp [holes] at h
    | _ => rfl

theorem resolve_shift (pre ps post : List String) {t : Tok ℕ}
    (h : ∀ n ∈ holes [t], 1 ≤ n ∧ n ≤ ps.length) :
    resolve (pre ++ ps ++ post) (t.shift pre.length) = resolve ps t := by
  cases t with
  | hole n =>
    obtain ⟨hpos, hle⟩ := h n (by simp [holes])
    have hidx : n + pre.length - 1 = pre.length + (n - 1) := by omega
    have hlt : n - 1 < ps.length := by omega
    have hget : (pre ++ ps ++ post)[n + pre.length - 1]? = ps[n - 1]? := by
      rw [hidx, List.append_assoc, List.getElem?_append_right (by omega), Nat.add_sub_cancel_left,
        List.getElem?_append_left hlt]
    have hn : n ≠ 0 := by omega
    simp only [Tok.shift, resolve, Nat.add_eq_zero_iff, hn, false_and, if_false, hget]
  | _ => rfl

/-- Placeholders that continue the numbering after `pre` read the parameters after `pre`. -/
theorem eval_shift (M : Meaning ρ) (pre ps post : List String)
    (h : ∀ n ∈ e.holes, 1 ≤ n ∧ n ≤ ps.length) :
    (e.shift pre.length).eval M (pre ++ ps ++ post) = e.eval M ps := by
  induction e with
  | atom ts =>
    have hts : (ts.map (Tok.shift pre.length)).mapM (resolve (pre ++ ps ++ post)) =
        ts.mapM (resolve ps) := by
      induction ts with
      | nil => rfl
      | cons t ts ih =>
        simp only [Cond.holes] at h ih
        rw [holes_cons, List.forall_mem_append] at h
        rw [List.map_cons, List.mapM_cons, List.mapM_cons, resolve_shift pre ps post h.1, ih h.2]
    simp only [Cond.shift, Cond.eval, hts]
  | and a b iha ihb =>
    rw [Cond.holes, List.forall_mem_append] at h
    simp only [Cond.shift, Cond.eval, iha h.1, ihb h.2]
  | or a b iha ihb =>
    rw [Cond.holes, List.forall_mem_append] at h
    simp only [Cond.shift, Cond.eval, iha h.1, ihb h.2]

theorem bound_of_resolve (h : (ts.mapM (resolve ps)).isSome) :
    ∀ n ∈ holes ts, 1 ≤ n ∧ n ≤ ps.length := by
  induction ts with
  | nil => simp
  | cons t ts ih =>
    rw [List.mapM_cons] at h
    obtain ⟨us, hus⟩ := Option.isSome_iff_exists.mp h
    obtain ⟨u, hu, hrest⟩ := Option.bind_eq_some_iff.mp hus
    obtain ⟨vs, hvs, -⟩ := Option.bind_eq_some_iff.mp hrest
    rw [holes_cons, List.forall_mem_append]
    refine ⟨?_, ih (by rw [hvs]; rfl)⟩
    cases t with
    | hole n =>
      simp only [resolve] at hu
      split at hu
      · cases hu
      · obtain ⟨x, hx, -⟩ := Option.map_eq_some_iff.mp hu
        have hlt := (List.getElem?_eq_some_iff.mp hx).1
        simp only [holes, List.filterMap_cons, List.filterMap_nil, List.mem_singleton, forall_eq]
        omega
    | _ => exact fun _ hn => by cases hn

/-- A placeholder of a condition that evaluates has its parameter. -/
theorem bound_of_eval (h : (e.eval M ps).isSome) : ∀ n ∈ e.holes, 1 ≤ n ∧ n ≤ ps.length := by
  induction e with
  | atom ts =>
    refine bound_of_resolve ?_
    simp only [Cond.eval] at h
    cases hts : ts.mapM (resolve ps) with
    | none => simp [hts] at h
    | some us => rfl
  | and a b iha ihb =>
    obtain ⟨ha, hb⟩ := valid_and.mp (show valid M ps (some (.and a b)) from h)
    exact List.forall_mem_append.mpr ⟨iha ha, ihb hb⟩
  | or a b iha ihb =>
    obtain ⟨ha, hb⟩ := valid_or.mp (show valid M ps (some (.or a b)) from h)
    exact List.forall_mem_append.mpr ⟨iha ha, ihb hb⟩

/-- A condition without placeholders means the same under any parameters. -/
theorem eval_of_holes (M : Meaning ρ) (ps : List String) (h : e.holes = []) :
    e.eval M ps = e.eval M [] := by
  have hshift := eval_shift M [] [] ps (e := e) (by simp [h])
  have hzero : Tok.shift 0 = id := by
    funext t
    cases t <;> rfl
  have hself : e.shift 0 = e := by
    clear h hshift
    induction e with
    | atom ts => simp [Cond.shift, hzero]
    | and a b iha ihb => rw [Cond.shift, iha, ihb]
    | or a b iha ihb => rw [Cond.shift, iha, ihb]
  simpa [hself] using hshift

/-! ## Texts without placeholders -/

/-- Nothing the frame holds has a placeholder. -/
structure Frame.Closed (f : Frame) : Prop where
  seg : holes f.seg = []
  raw : holes f.raw = []
  disj : ∀ x ∈ f.disj, x.holes = []
  conj : ∀ x ∈ f.conj, x.holes = []
  lone : ∀ v ∈ f.lone, ∀ x ∈ v, x.holes = []

theorem closed_empty : Frame.Closed {} := ⟨rfl, rfl, nofun, nofun, nofun⟩

namespace Frame.Closed

variable {f : Frame} (h : f.Closed)
include h

theorem operand : ∀ x ∈ f.operand, x.holes = [] := by
  intro x hx
  unfold Frame.operand at hx
  split at hx
  · cases hx
  · cases hl : f.lone with
    | none =>
      rw [hl] at hx
      cases hx
      exact h.seg
    | some v =>
      rw [hl] at hx
      exact h.lone v hl x hx

theorem conjoined : ∀ x ∈ f.conjoined, x.holes = [] := by
  intro x hx
  obtain ⟨e, he, rfl⟩ := Option.map_eq_some_iff.mp hx
  have hop := h.operand e he
  cases hc : f.conj with
  | none => exact hop
  | some c => simp [andElse, Cond.holes, h.conj c hc, hop]

theorem disjoined : ∀ x ∈ f.conjoined.map (orElse f.disj), x.holes = [] := by
  intro x hx
  obtain ⟨e, he, rfl⟩ := Option.map_eq_some_iff.mp hx
  have hconj := h.conjoined e he
  cases hd : f.disj with
  | none => exact hconj
  | some d => simp [orElse, Cond.holes, h.disj d hd, hconj]

theorem value : ∀ x ∈ f.value, x.holes = [] := by
  intro x hx
  unfold Frame.value at hx
  split at hx
  · cases hx
  · exact h.disjoined x hx

theorem push {t : Tok ℕ} (ht : holes [t] = []) : (f.push t).Closed := by
  have hadd : (f.add t).Closed :=
    ⟨by simp [Frame.add, h.seg, ht], h.raw, h.disj, h.conj, by simp [Frame.add]⟩
  have hand : f.afterAnd.Closed := ⟨rfl, h.raw, h.disj, h.conjoined, by simp [Frame.afterAnd]⟩
  have hor : f.afterOr.Closed :=
    ⟨rfl, h.raw, h.disjoined, by simp [Frame.afterOr], by simp [Frame.afterOr]⟩
  have hs : (f.structural t).Closed := by
    unfold Frame.structural
    split
    · split
      · exact hadd
      · split
        · exact ⟨hadd.seg, hadd.raw, hadd.disj, hadd.conj, hadd.lone⟩
        · exact hand
    · split
      · exact hadd
      · exact hor
    · split
      · exact hadd
      · exact ⟨hadd.seg, hadd.raw, hadd.disj, hadd.conj, hadd.lone⟩
    · exact ⟨hadd.seg, hadd.raw, hadd.disj, hadd.conj, hadd.lone⟩
    · exact ⟨hadd.seg, hadd.raw, hadd.disj, hadd.conj, hadd.lone⟩
    · exact hadd
  exact ⟨hs.seg, by simp [Frame.push, h.raw, ht], hs.disj, hs.conj, hs.lone⟩

theorem group {g : Frame} (hg : g.Closed) (b : Bracket) : (f.group b g.raw g.value).Closed := by
  have hts : holes (.opening b :: (g.raw ++ [.closing b])) = [] := by
    have hopen : holes [.opening b] = [] := rfl
    have hclose : holes [.closing b] = [] := rfl
    rw [holes_cons, holes_append, hopen, hclose, hg.raw]
    rfl
  refine ⟨?_, ?_, h.disj, h.conj, fun v hv => ?_⟩
  · rw [Frame.group, holes_append, h.seg, hts]
    rfl
  · rw [Frame.group, holes_append, h.raw, hts]
    rfl
  · simp only [Frame.group] at hv
    split at hv
    · cases hv
      exact hg.value
    · cases hv

end Frame.Closed

/-- The condition a text without placeholders spells has none. -/
theorem holes_of_parse (hts : holes ts = []) (h : parse ts = some e) : e.holes = [] := by
  have key (ts : List (Tok ℕ)) (s s' : State) (hts : holes ts = []) (hs : s.cur.Closed)
      (ho : ∀ p ∈ s.outer, p.2.Closed) (hrun : s.run ts = some s') : s'.cur.Closed := by
    induction ts generalizing s with
    | nil =>
      cases hrun
      exact hs
    | cons t ts ih =>
      rw [holes_cons, List.append_eq_nil_iff] at hts
      obtain ⟨mid, hmid, hrest⟩ := Option.bind_eq_some_iff.mp hrun
      by_cases hflat : Flat t
      · rw [next_of_flat hflat] at hmid
        cases hmid
        exact ih ⟨s.cur.push t, s.outer⟩ hts.2 (hs.push hts.1) ho hrest
      · cases t with
        | opening b =>
          cases hmid
          refine ih ⟨{}, (b, s.cur) :: s.outer⟩ hts.2 closed_empty ?_ hrest
          exact List.forall_mem_cons.mpr ⟨hs, ho⟩
        | closing b =>
          obtain ⟨f, outer⟩ := s
          cases outer with
          | nil => cases hmid
          | cons p outer =>
            simp only [State.next] at hmid
            split at hmid
            · cases hmid
              obtain ⟨hp, ho⟩ := List.forall_mem_cons.mp ho
              exact ih _ hts.2 (hp.group hs b) ho hrest
            · cases hmid
        | semi => cases hmid
        | _ => exact absurd trivial hflat
  unfold parse at h
  split at h
  · rename_i f hrun
    exact (key ts {} _ hts closed_empty (by simp) hrun).value e h
  · cases h

end Backbone.Sql
