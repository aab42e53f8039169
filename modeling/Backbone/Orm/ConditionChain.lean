import Mathlib.Algebra.GroupWithZero.Nat
import Backbone.Orm.ConditionSql

/-!
# Chains of conditions

The search, the caller's own conditions and each term of a keyset predicate are the same thing:
conditions one after the other, AND or OR between them, placeholders numbered in a row. A chain reads
as the conditions say on their own, each with its own parameters from `$1` on, when the parameters
of the conditions stand where the numbering expects them (`holds_chain`).
-/

namespace Backbone.Orm

open Sql Text

variable {ρ : Type*} {c : FilterCondition} {M : Meaning ρ} {ps : List String}

/-- The link a logical operator is. -/
def FilterLogical.link : FilterLogical → Link
  | .and => .and
  | .or => .or

/-! ## One condition -/

namespace FilterCondition

/-- Every placeholder has its parameter. -/
def Full (c : FilterCondition) : Prop := c.getParams.length = c.slots

/-- Can the condition be evaluated on its own? -/
def Evaluates (M : Meaning ρ) (c : FilterCondition) : Prop :=
  valid M c.getParams (read (c.sql 1))

/-- Does the row satisfy the condition on its own, numbered from `$1`, with its own parameters? -/
def HoldsAlone (M : Meaning ρ) (r : ρ) (c : FilterCondition) : Prop :=
  holds M c.getParams (read (c.sql 1)) r

theorem reading_shift (h : c.WellNamed) (k j : ℕ) :
    (c.reading k).map (Cond.shift j) = c.reading (k + j) := by
  unfold reading columnValue
  split
  · rfl
  · simp [Cond.shift, shift_of_holes h.field.holes, tailToks_shift h]

theorem mem_holes_reading (h : c.WellNamed) {k : ℕ} {e : Cond} (he : c.reading k = some e) {n : ℕ} :
    n ∈ e.holes ↔ k ≤ n ∧ n < k + c.slots := by
  unfold reading columnValue at he
  split at he
  · cases he
  · cases he
    simp only [Cond.holes, holes_append, h.field.holes, holes_tailToks h, List.nil_append,
      List.mem_map, List.mem_range]
    constructor
    · rintro ⟨i, hi, rfl⟩
      omega
    · rintro ⟨hle, hlt⟩
      exact ⟨n - k, by omega, by omega⟩

/-- A condition in its place means what it means on its own. -/
theorem eval_reading (M : Meaning ρ) (h : c.WellNamed) (hfull : c.Full) (pre post : List String) :
    (c.reading (1 + pre.length)).bind (Cond.eval M (pre ++ c.getParams ++ post)) =
      (read (c.sql 1)).bind (Cond.eval M c.getParams) := by
  rw [← reading_shift h, read_sql h]
  cases he : c.reading 1 with
  | none => rfl
  | some e =>
    refine eval_shift M pre c.getParams post fun n hn => ?_
    obtain ⟨hle, hlt⟩ := (mem_holes_reading h he).mp hn
    rw [hfull]
    omega

end FilterCondition

/-! ## The chain -/

/-- The text of a chain from the number `k` on. -/
def chainText (k : ℕ) (c : FilterCondition) : List FilterCondition → String
  | [] => c.sql k
  | d :: rest => c.sql k ++ d.logical.text ++ chainText (k + c.slots) d rest

/-- The conditions after the first with the tokens and the reading each has in its place. -/
def chainLinks (k : ℕ) : List FilterCondition → List (Link × List (Tok ℕ) × Option Cond)
  | [] => []
  | d :: rest =>
    (d.logical.link, toks d.field ++ d.tailToks k, d.reading k) :: chainLinks (k + d.slots) rest

/-- The tokens of a chain. -/
def chainTokens (k : ℕ) (c : FilterCondition) (rest : List FilterCondition) : List (Tok ℕ) :=
  chainToks (toks c.field ++ c.tailToks k)
    ((chainLinks (k + c.slots) rest).map fun p => (p.1, p.2.1))

/-- The reading of a chain. -/
def chainReading (k : ℕ) (c : FilterCondition) (rest : List FilterCondition) : Option Cond :=
  chainValue (c.reading k) ((chainLinks (k + c.slots) rest).map fun p => (p.1, p.2.2))

/-- The parameters of a chain. -/
def chainParams (cs : List FilterCondition) : List String := cs.flatMap FilterCondition.getParams

/-- The placeholders of a chain. -/
def chainSlots (cs : List FilterCondition) : ℕ := (cs.map FilterCondition.slots).sum

/-- As many parameters as placeholders. -/
theorem length_chainParams {cs : List FilterCondition} (h : ∀ c ∈ cs, c.Full) :
    (chainParams cs).length = chainSlots cs := by
  induction cs with
  | nil => rfl
  | cons c cs ih =>
    obtain ⟨hc, hcs⟩ := List.forall_mem_cons.mp h
    simpa [chainParams, chainSlots, hc.symm, FilterCondition.Full] using ih hcs

theorem Lexes.link {s t : List Char} {ts us : List (Tok ℕ)} (hs : Lexes s ts) (ht : Lexes t us)
    (l : FilterLogical) : Lexes (s ++ l.text.toList ++ t) (ts ++ l.link.tok :: us) := by
  cases l with
  | and =>
    have hand : Lexes "AND".toList [Link.and.tok] := rfl
    simpa [FilterLogical.text, FilterLogical.link] using hs.space (hand.space ht)
  | or =>
    have hor : Lexes "OR".toList [Link.or.tok] := rfl
    simpa [FilterLogical.text, FilterLogical.link] using hs.space (hor.space ht)

section Chain

variable {c : FilterCondition} {rest : List FilterCondition}

theorem lexes_chain (hc : c.WellNamed) (hrest : ∀ d ∈ rest, d.WellNamed) (k : ℕ) :
    Lexes (chainText k c rest).toList (chainTokens k c rest) := by
  induction rest generalizing c k with
  | nil => simpa [chainText, chainTokens, chainLinks, chainToks] using FilterCondition.lexes_sql hc k
  | cons d rest ih =>
    have hd := hrest d List.mem_cons_self
    have htail := ih hd (fun x hx => hrest x (List.mem_cons_of_mem _ hx)) (k + c.slots)
    have hall := Lexes.link (FilterCondition.lexes_sql hc k) htail d.logical
    simpa [chainText, chainTokens, chainLinks, chainToks] using hall

theorem operand_chainLinks (hrest : ∀ d ∈ rest, d.WellNamed) (k : ℕ) :
    ∀ p ∈ chainLinks k rest, Operand p.2.1 p.2.2 := by
  induction rest generalizing k with
  | nil => simp [chainLinks]
  | cons d rest ih =>
    intro p hp
    rcases List.mem_cons.mp hp with rfl | hp
    · exact FilterCondition.operand (hrest d List.mem_cons_self) k
    · exact ih (fun x hx => hrest x (List.mem_cons_of_mem _ hx)) _ p hp

theorem balanced_chainTokens (hc : c.WellNamed) (hrest : ∀ d ∈ rest, d.WellNamed) (k : ℕ) :
    Balanced (chainTokens k c rest) := by
  refine balanced_chain (FilterCondition.operand hc k).balanced fun p hp => ?_
  obtain ⟨q, hq, rfl⟩ := List.mem_map.mp hp
  exact (operand_chainLinks hrest _ q hq).balanced

theorem parse_chainTokens (hc : c.WellNamed) (hrest : ∀ d ∈ rest, d.WellNamed) (k : ℕ) :
    parse (chainTokens k c rest) = chainReading k c rest :=
  parse_chain (FilterCondition.operand hc k) (operand_chainLinks hrest _)

/-- A chain of conditions is no query: its first word is a column with an operator after it. -/
theorem isSubquery_chainTokens (hc : c.WellNamed) (k : ℕ) :
    isSubquery (chainTokens k c rest) = false := by
  obtain ⟨t, ts, htail, hop⟩ := FilterCondition.tailToks_head hc.operator k
  have hcol := hc.field.column
  unfold chainTokens chainToks
  rw [htail]
  generalize toks c.field = hs at hcol
  cases hcol with
  | name w => simp [isSubquery, hop]
  | expr => simp [isSubquery]

/-- The conditions of a chain in their places mean what they mean on their own. -/
theorem eval_chainLinks {M : Meaning ρ} {ps : List String} (hrest : ∀ d ∈ rest, d.WellNamed)
    (hfull : ∀ d ∈ rest, d.Full) (pre post : List String)
    (hps : ps = pre ++ chainParams rest ++ post) :
    List.Forall₂ (fun (x : Link × Option Cond) (y : Link × FilterCondition) => x.1 = y.1 ∧
        x.2.bind (Cond.eval M ps) = (read (y.2.sql 1)).bind (Cond.eval M y.2.getParams))
      ((chainLinks (1 + pre.length) rest).map fun p => (p.1, p.2.2))
      (rest.map fun d => (d.logical.link, d)) := by
  induction rest generalizing pre with
  | nil => exact .nil
  | cons d rest ih =>
    have hd := hrest d List.mem_cons_self
    have hdf := hfull d List.mem_cons_self
    have hhere : ps = pre ++ d.getParams ++ (chainParams rest ++ post) := by
      simp [hps, chainParams]
    have hnext : 1 + pre.length + d.slots = 1 + (pre ++ d.getParams).length := by
      rw [List.length_append, hdf]
      omega
    refine .cons ⟨rfl, ?_⟩ ?_
    · rw [hhere]
      exact FilterCondition.eval_reading M hd hdf pre _
    · rw [hnext]
      refine ih (fun x hx => hrest x (List.mem_cons_of_mem _ hx))
        (fun x hx => hfull x (List.mem_cons_of_mem _ hx)) (pre ++ d.getParams) ?_
      simp [hps, chainParams]

section Placed

variable {M : Meaning ρ} (hc : c.WellNamed) (hrest : ∀ d ∈ rest, d.WellNamed) (hcf : c.Full)
  (hfull : ∀ d ∈ rest, d.Full) (pre post : List String)
include hc hrest hcf hfull

omit hrest hfull in
theorem eval_chain_head (rest : List FilterCondition) :
    (c.reading (1 + pre.length)).bind (Cond.eval M (pre ++ chainParams (c :: rest) ++ post)) =
      (read (c.sql 1)).bind (Cond.eval M c.getParams) := by
  have hps : pre ++ chainParams (c :: rest) ++ post =
      pre ++ c.getParams ++ (chainParams rest ++ post) := by
    simp [chainParams]
  rw [hps]
  exact FilterCondition.eval_reading M hc hcf pre _

omit hc in
theorem eval_chain_rest :
    List.Forall₂ (fun (x : Link × Option Cond) (y : Link × FilterCondition) => x.1 = y.1 ∧
        x.2.bind (Cond.eval M (pre ++ chainParams (c :: rest) ++ post)) =
          (read (y.2.sql 1)).bind (Cond.eval M y.2.getParams))
      ((chainLinks (1 + pre.length + c.slots) rest).map fun p => (p.1, p.2.2))
      (rest.map fun d => (d.logical.link, d)) := by
  have hnext : 1 + pre.length + c.slots = 1 + (pre ++ c.getParams).length := by
    rw [List.length_append, hcf]
    omega
  rw [hnext]
  exact eval_chainLinks hrest hfull _ post (by simp [chainParams])

/-- A chain in its place holds as its conditions do on their own. -/
theorem holds_chain (r : ρ) :
    holds M (pre ++ chainParams (c :: rest) ++ post) (chainReading (1 + pre.length) c rest) r ↔
      ChainHolds (FilterCondition.Evaluates M) (FilterCondition.HoldsAlone M r) c
        (rest.map fun d => (d.logical.link, d)) := by
  have hhead := eval_chain_head (M := M) hc hcf pre post rest
  rw [chainReading, holds_chainValue]
  refine chainHolds_congr ⟨?_, ?_⟩ ?_
  · rw [valid, hhead, FilterCondition.Evaluates, valid]
  · rw [holds, hhead, FilterCondition.HoldsAlone, holds]
  · refine (eval_chain_rest (M := M) hrest hcf hfull pre post).imp ?_
    rintro x y ⟨hlink, heval⟩
    refine ⟨hlink, ?_, ?_⟩
    · rw [valid, heval, FilterCondition.Evaluates, valid]
    · rw [holds, heval, FilterCondition.HoldsAlone, holds]

/-- A chain in its place evaluates when its conditions do on their own. -/
theorem valid_chain :
    valid M (pre ++ chainParams (c :: rest) ++ post) (chainReading (1 + pre.length) c rest) ↔
      c.Evaluates M ∧ ∀ d ∈ rest, d.Evaluates M := by
  have hhead := eval_chain_head (M := M) hc hcf pre post rest
  have htail := (eval_chain_rest (M := M) hrest hcf hfull pre post).imp
    fun x y (h : _ ∧ _) => show (valid M _ x.2 = true ↔ y.2.Evaluates M) by
      rw [valid, h.2, FilterCondition.Evaluates, valid]
  rw [chainReading, valid_chainValue, forall_mem_congr htail, valid, hhead,
    FilterCondition.Evaluates, valid]
  simp

end Placed

/-! ## Placeholders -/

theorem holes_chainLinks (hrest : ∀ d ∈ rest, d.WellNamed) (k : ℕ) :
    holes ((chainLinks k rest).flatMap fun p => p.1.tok :: p.2.1) =
      (List.range (chainSlots rest)).map (k + ·) := by
  induction rest generalizing k with
  | nil => rfl
  | cons d rest ih =>
    have hd := hrest d List.mem_cons_self
    have hlink : holes [d.logical.link.tok] = [] := by cases d.logical <;> rfl
    rw [chainLinks, List.flatMap_cons, holes_append, holes_cons, hlink, holes_append, hd.field.holes,
      FilterCondition.holes_tailToks hd, ih fun x hx => hrest x (List.mem_cons_of_mem _ hx)]
    simp only [chainSlots, List.map_cons, List.sum_cons, List.range_add, List.map_append,
      List.map_map, Function.comp_def, List.nil_append, Nat.add_assoc]

/-- The placeholders of a chain are numbered in a row. -/
theorem holes_chainTokens (hc : c.WellNamed) (hrest : ∀ d ∈ rest, d.WellNamed) (k : ℕ) :
    holes (chainTokens k c rest) = (List.range (chainSlots (c :: rest))).map (k + ·) := by
  rw [chainTokens, chainToks, holes_append, holes_append, hc.field.holes,
    FilterCondition.holes_tailToks hc, List.flatMap_map, holes_chainLinks hrest]
  simp only [chainSlots, List.map_cons, List.sum_cons, List.range_add, List.map_append,
    List.map_map, Function.comp_def, List.nil_append, Nat.add_assoc]

end Chain

/-! ## Chains that evaluate -/

theorem FilterCondition.bound_of_valid (hc : c.WellNamed) {k : ℕ}
    (h : valid M ps (c.reading k)) {n : ℕ} (hk : k ≤ n) (hn : n < k + c.slots) : n ≤ ps.length := by
  cases he : c.reading k with
  | none =>
    rw [he] at h
    cases h
  | some e =>
    rw [he] at h
    exact (bound_of_eval h n ((mem_holes_reading hc he).mpr ⟨hk, hn⟩)).2

/-- The placeholders of a chain that evaluates all have their parameters. -/
theorem bound_of_valid_chain {rest : List FilterCondition}
    (hc : c.WellNamed) (hrest : ∀ d ∈ rest, d.WellNamed) {k : ℕ}
    (h : valid M ps (chainReading k c rest)) {n : ℕ} (hk : k ≤ n)
    (hn : n < k + chainSlots (c :: rest)) : n ≤ ps.length := by
  have key (rest : List FilterCondition) (hrest : ∀ d ∈ rest, d.WellNamed) (k : ℕ)
      (h : ∀ p ∈ chainLinks k rest, valid M ps p.2.2) (hk : k ≤ n)
      (hn : n < k + chainSlots rest) : n ≤ ps.length := by
    induction rest generalizing k with
    | nil =>
      simp [chainSlots] at hn
      omega
    | cons d rest ih =>
      obtain ⟨hd, hrest⟩ := List.forall_mem_cons.mp hrest
      obtain ⟨hvalid, hlinks⟩ := List.forall_mem_cons.mp h
      by_cases hlt : n < k + d.slots
      · exact FilterCondition.bound_of_valid hd hvalid hk hlt
      · refine ih hrest (k + d.slots) hlinks (by omega) ?_
        simp only [chainSlots, List.map_cons, List.sum_cons] at hn ⊢
        omega
  rw [chainReading, valid_chainValue, List.forall_mem_map] at h
  refine key (c :: rest) (List.forall_mem_cons.mpr ⟨hc, hrest⟩) k ?_ hk hn
  exact List.forall_mem_cons.mpr h

end Backbone.Orm
