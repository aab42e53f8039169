import Backbone.Lib.Sql.Read

/-!
# Chains of operands

A condition assembled as text is a chain: operands with AND or OR between them. `Operand ts v` says
that the tokens `ts` read as one operand with the reading `v` wherever an operand is due; the reading
is `none` when the operand can never be part of a condition. `run_chain` puts the readings together,
`operand_paren` makes an operand of a condition in parentheses, and `operand_column` of an atom that
compares a column.
-/

namespace Backbone.Sql

variable {ts : List (Tok ℕ)} {f : Frame} {rest : List (Link × List (Tok ℕ))} {f' : Frame}
  {v : Option Cond} {us : List (Tok ℕ)} {t : Tok ℕ}

/-! ## Operands -/

/-- No operand is open, and the condition can still be read. -/
structure Frame.Fresh (f : Frame) : Prop where
  seg : f.seg = []
  lone : f.lone = none
  betweens : f.betweens = 0
  cases : f.cases = 0
  bad : f.bad = false

theorem fresh_empty : Frame.Fresh {} := ⟨rfl, rfl, rfl, rfl, rfl⟩

/-- Between `f` and `f'` one operand with the given reading was read. -/
def Frame.Reads (f f' : Frame) : Option Cond → Prop
  | some e => f'.disj = f.disj ∧ f'.conj = f.conj ∧ f'.betweens = 0 ∧ f'.cases = 0 ∧
      f'.bad = false ∧ f'.operand = some e
  | none => f'.bad = true ∨ f'.operand = none ∧ f'.betweens = 0 ∧ f'.cases = 0

/-- The tokens read as one operand, wherever an operand is due. -/
structure Operand (ts : List (Tok ℕ)) (v : Option Cond) : Prop where
  balanced : Balanced ts
  reads : ∀ f : Frame, f.Fresh →
    ∃ f', f.Reads f' v ∧ ∀ out, State.run ⟨f, out⟩ ts = some ⟨f', out⟩

/-- A condition in parentheses is an operand, with its own reading. -/
theorem operand_paren (h : Balanced ts) (hq : isSubquery ts = false) :
    Operand (.opening .paren :: (ts ++ [.closing .paren])) (parse ts) := by
  refine ⟨h.bracket .paren, fun f hf => ?_⟩
  obtain ⟨g, hraw, -, hrun⟩ := run_balanced h {}
  rw [List.nil_append] at hraw
  refine ⟨f.group .paren ts g.value, ?_, fun out => ?_⟩
  · rw [parse_eq_value hrun]
    have hop : (f.group .paren ts g.value).operand = g.value := by
      simp [Frame.operand, Frame.group, hf.seg, hq]
    cases hv : g.value with
    | none => exact .inr ⟨by rw [← hv, hop, hv], hf.betweens, hf.cases⟩
    | some e => exact ⟨rfl, rfl, hf.betweens, hf.cases, hf.bad, by rw [← hv, hop, hv]⟩
  · rw [State.run_cons, State.next, Option.bind_some, State.run_append, hrun]
    simp [State.run, State.next, hraw]

/-! ## Chains -/

/-- What stands between two operands. -/
inductive Link where
  | and
  | or
deriving DecidableEq, Repr

/-- The word a link is written as. -/
def Link.tok : Link → Tok ℕ
  | .and => .word ['A', 'N', 'D']
  | .or => .word ['O', 'R']

/-- The tokens of a chain: the first operand, then each link with its operand. -/
def chainToks (ts : List (Tok ℕ)) (rest : List (Link × List (Tok ℕ))) : List (Tok ℕ) :=
  ts ++ rest.flatMap fun p => p.1.tok :: p.2

/-- The reading of a chain, after the disjuncts `d` and the conjuncts `c`. -/
def chainFrom (d c : Option Cond) (v : Option Cond) : List (Link × Option Cond) → Option Cond
  | [] => v.map fun e => orElse d (andElse c e)
  | (.and, w) :: rest => v.bind fun e => chainFrom d (some (andElse c e)) w rest
  | (.or, w) :: rest => v.bind fun e => chainFrom (some (orElse d (andElse c e))) none w rest

/-- The reading of a chain. -/
def chainValue (v : Option Cond) (rest : List (Link × Option Cond)) : Option Cond :=
  chainFrom none none v rest

theorem chainFrom_none (d c : Option Cond) (rest : List (Link × Option Cond)) :
    chainFrom d c none rest = none := by
  cases rest with
  | nil => rfl
  | cons p rest =>
    obtain ⟨l, w⟩ := p
    cases l <;> rfl

theorem Link.flat_tok (l : Link) : Flat l.tok := by cases l <;> trivial

theorem Frame.value_of_bad (h : f.bad) : f.value = none := by simp [Frame.value, h]

/-- After an operand and a link, the next operand is due. -/
theorem Frame.Reads.push {e : Cond} (h : f.Reads f' (some e)) (l : Link) :
    (f'.push l.tok).Fresh ∧
      (f'.push l.tok).disj = (if l = .and then f.disj else some (orElse f.disj (andElse f.conj e))) ∧
      (f'.push l.tok).conj = (if l = .and then some (andElse f.conj e) else none) := by
  obtain ⟨hd, hc, hb, hcs, hbad, hop⟩ := h
  have hconj : f'.conjoined = some (andElse f.conj e) := by rw [Frame.conjoined, hop, hc]; rfl
  have hword (l : Link) : isOperator l.tok = false := by cases l <;> decide
  cases l with
  | and =>
    have hs : f'.structural Link.and.tok = f'.afterAnd := by
      have : keywordOf Link.and.tok = some .and := by decide
      simp [Frame.structural, this, hb, hcs]
    refine ⟨⟨?_, ?_, ?_, ?_, ?_⟩, ?_, ?_⟩ <;>
      simp [Frame.push, hs, hword, Frame.afterAnd, hb, hcs, hbad, hconj, hd]
  | or =>
    have hs : f'.structural Link.or.tok = f'.afterOr := by
      have : keywordOf Link.or.tok = some .or := by decide
      simp [Frame.structural, this, hcs]
    refine ⟨⟨?_, ?_, ?_, ?_, ?_⟩, ?_, ?_⟩ <;>
      simp [Frame.push, hs, hword, Frame.afterOr, hb, hcs, hbad, hconj, hd]

/-- After an operand that cannot be read, a link makes the whole condition unreadable. -/
theorem Frame.Reads.push_bad (h : f.Reads f' none) (l : Link) : (f'.push l.tok).bad := by
  rcases h with hbad | ⟨hop, hb, hcs⟩
  · exact Frame.push_bad hbad _
  · have hconj : f'.conjoined = none := by rw [Frame.conjoined, hop]; rfl
    have hand : keywordOf Link.and.tok = some .and := by decide
    have hor : keywordOf Link.or.tok = some .or := by decide
    cases l <;>
      simp [Frame.push, Frame.structural, hand, hor, hb, hcs, Frame.afterAnd, Frame.afterOr, hconj]

theorem balanced_links (h : ∀ p ∈ rest, Balanced p.2) :
    Balanced (rest.flatMap fun p => p.1.tok :: p.2) := by
  induction rest with
  | nil => rfl
  | cons p rest ih =>
    rw [List.flatMap_cons]
    refine Balanced.append (Balanced.cons p.1.flat_tok (h p List.mem_cons_self)) ?_
    exact ih fun q hq => h q (List.mem_cons_of_mem _ hq)

/-- A chain of operands reads as the chain of their readings. -/
theorem run_chain (h : Operand ts v)
    {rest : List (Link × List (Tok ℕ) × Option Cond)} (hrest : ∀ p ∈ rest, Operand p.2.1 p.2.2)
    (hf : f.Fresh) :
    ∃ f', f'.value = chainFrom f.disj f.conj v (rest.map fun p => (p.1, p.2.2)) ∧
      ∀ out, State.run ⟨f, out⟩ (chainToks ts (rest.map fun p => (p.1, p.2.1))) =
        some ⟨f', out⟩ := by
  induction rest generalizing ts v f with
  | nil =>
    obtain ⟨f', hreads, hrun⟩ := h.reads f hf
    refine ⟨f', ?_, fun out => by simpa [chainToks] using hrun out⟩
    cases v with
    | none =>
      rcases hreads with hbad | ⟨hop, hb, hcs⟩
      · exact Frame.value_of_bad hbad
      · simp [Frame.value, Frame.conjoined, hop, chainFrom]
    | some e =>
      obtain ⟨hd, hc, hb, hcs, hbad, hop⟩ := hreads
      simp [Frame.value, Frame.conjoined, hop, hbad, hb, hcs, hd, hc, chainFrom]
  | cons p rest ih =>
    obtain ⟨l, us, w⟩ := p
    obtain ⟨f', hreads, hrun⟩ := h.reads f hf
    have hsplit (out) : State.run ⟨f, out⟩
        (chainToks ts (((l, us, w) :: rest).map fun p => (p.1, p.2.1))) =
        State.run ⟨f'.push l.tok, out⟩ (chainToks us (rest.map fun p => (p.1, p.2.1))) := by
      rw [chainToks, State.run_append, hrun, Option.bind_some, List.map_cons, List.flatMap_cons,
        List.cons_append, State.run_cons, next_of_flat l.flat_tok]
      rfl
    have hus : Operand us w := hrest _ List.mem_cons_self
    have hrest' : ∀ p ∈ rest, Operand p.2.1 p.2.2 := fun p hp => hrest p (List.mem_cons_of_mem _ hp)
    cases v with
    | none =>
      -- Whatever follows, the frame is spoilt.
      have hbal : Balanced (chainToks us (rest.map fun p => (p.1, p.2.1))) := by
        refine hus.balanced.append (balanced_links ?_)
        intro q hq
        obtain ⟨p, hp, rfl⟩ := List.mem_map.mp hq
        exact (hrest' p hp).balanced
      obtain ⟨f'', -, hbad, hrun'⟩ := run_balanced hbal (f'.push l.tok)
      refine ⟨f'', ?_, fun out => (hsplit out).trans (hrun' out)⟩
      rw [Frame.value_of_bad (hbad (hreads.push_bad l)), chainFrom_none]
    | some e =>
      obtain ⟨hfresh, hd, hc⟩ := hreads.push l
      obtain ⟨f'', hval, hrun'⟩ := ih hus hrest' hfresh
      refine ⟨f'', ?_, fun out => (hsplit out).trans (hrun' out)⟩
      rw [hval, hd, hc]
      cases l <;> simp [chainFrom]

theorem balanced_chain (h : Balanced ts)
    (hrest : ∀ p ∈ rest, Balanced p.2) : Balanced (chainToks ts rest) :=
  h.append (balanced_links hrest)

/-- A chain of operands as a whole condition. -/
theorem parse_chain (h : Operand ts v)
    {rest : List (Link × List (Tok ℕ) × Option Cond)} (hrest : ∀ p ∈ rest, Operand p.2.1 p.2.2) :
    parse (chainToks ts (rest.map fun p => (p.1, p.2.1))) =
      chainValue v (rest.map fun p => (p.1, p.2.2)) := by
  obtain ⟨f', hval, hrun⟩ := run_chain h hrest fresh_empty
  rw [parse_eq_value hrun, hval]
  rfl

/-! ## Atoms -/

/-- A token that only adds itself to the operand. -/
def Plain (t : Tok ℕ) : Prop := Flat t ∧ keywordOf t = none

instance : DecidablePred Plain := fun _ => inferInstanceAs (Decidable (_ ∧ _))

/-- The frame with more tokens in its operand. -/
def Frame.grow (f : Frame) (ts : List (Tok ℕ)) : Frame :=
  { f with seg := f.seg ++ ts, lone := none, raw := f.raw ++ ts }

theorem Frame.grow_grow (f : Frame) (ts us : List (Tok ℕ)) :
    (f.grow ts).grow us = f.grow (ts ++ us) := by
  simp [Frame.grow]

/-- The last of the tokens is no CASE. -/
def CaseClosed (ts : List (Tok ℕ)) : Prop :=
  ∃ us t, ts = us ++ [t] ∧ keywordOf t ≠ some .caseBegin

theorem CaseClosed.append (h : CaseClosed us) (ts : List (Tok ℕ)) : CaseClosed (ts ++ us) := by
  obtain ⟨vs, t, rfl, ht⟩ := h
  exact ⟨ts ++ vs, t, by simp, ht⟩

theorem CaseClosed.grow (h : CaseClosed ts) (f : Frame) : (f.grow ts).endsInCase = false := by
  obtain ⟨us, t, rfl, ht⟩ := h
  simp [Frame.grow, Frame.endsInCase, ← List.append_assoc, ht]

theorem caseClosed_of_plain (hne : ts ≠ []) (h : ∀ t ∈ ts, Plain t) : CaseClosed ts := by
  refine ⟨ts.dropLast, ts.getLast hne, (List.dropLast_append_getLast hne).symm, ?_⟩
  rw [(h _ (List.getLast_mem hne)).2]
  simp

theorem balanced_of_plain (h : ∀ t ∈ ts, Plain t) : Balanced ts := by
  induction ts with
  | nil => rfl
  | cons t ts ih =>
    exact Balanced.cons (h t List.mem_cons_self).1 (ih fun u hu => h u (List.mem_cons_of_mem _ hu))

theorem Frame.push_plain (hf : f.endsInCase = false) (ht : Plain t) : f.push t = f.grow [t] := by
  simp [Frame.push, Frame.structural, ht.2, hf, Frame.add, Frame.grow]

theorem run_plain (hf : f.endsInCase = false) (hne : ts ≠ []) (h : ∀ t ∈ ts, Plain t)
    (out : List (Bracket × Frame)) : State.run ⟨f, out⟩ ts = some ⟨f.grow ts, out⟩ := by
  induction ts generalizing f with
  | nil => exact absurd rfl hne
  | cons t ts ih =>
    have ht : Plain t := h t List.mem_cons_self
    have hstep : State.next ⟨f, out⟩ t = some ⟨f.grow [t], out⟩ := by
      rw [next_of_flat ht.1]
      simp [Frame.push_plain hf ht]
    rw [State.run_cons, hstep, Option.bind_some]
    cases ts with
    | nil => rfl
    | cons u us =>
      have hgrow : (f.grow [t]).endsInCase = false :=
        (caseClosed_of_plain (by simp) fun x hx => h x (by simp_all)).grow f
      rw [ih hgrow (by simp) fun x hx => h x (List.mem_cons_of_mem _ hx), Frame.grow_grow]
      rfl

/-- The tokens only add themselves to an operand that has begun. -/
structure Grows (ts : List (Tok ℕ)) : Prop where
  balanced : Balanced ts
  caseClosed : CaseClosed ts
  runs : ∀ f : Frame, f.seg ≠ [] → f.endsInCase = false → f.betweens = 0 → f.cases = 0 →
    ∀ out, State.run ⟨f, out⟩ ts = some ⟨f.grow ts, out⟩

theorem grows_plain (hne : ts ≠ []) (h : ∀ t ∈ ts, Plain t) : Grows ts :=
  ⟨balanced_of_plain h, caseClosed_of_plain hne h, fun _ _ hc _ _ => run_plain hc hne h⟩

theorem Grows.append (h : Grows ts) (h' : Grows us) : Grows (ts ++ us) := by
  refine ⟨h.balanced.append h'.balanced, h'.caseClosed.append ts, ?_⟩
  intro f hs hc hb hcs out
  rw [State.run_append, h.runs f hs hc hb hcs, Option.bind_some,
    h'.runs _ (by simp [Frame.grow, hs]) (h.caseClosed.grow f) hb hcs, Frame.grow_grow]

theorem caseClosed_bracket (ts : List (Tok ℕ)) (b : Bracket) :
    CaseClosed (.opening b :: (ts ++ [.closing b])) :=
  ⟨.opening b :: ts, .closing b, rfl, by simp [keywordOf]⟩

/-- The frame with another reading of the parentheses that are all of its operand. -/
def Frame.withLone (f : Frame) (l : Option (Option Cond)) : Frame := { f with lone := l }

theorem Frame.withLone_grow (f : Frame) (l : Option (Option Cond)) (ts : List (Tok ℕ)) :
    (f.withLone l).grow ts = f.grow ts :=
  rfl

theorem run_bracket (h : Balanced ts) (f : Frame) (b : Bracket) :
    ∃ l, (f.seg ≠ [] → l = none) ∧ ∀ out,
      State.run ⟨f, out⟩ (.opening b :: (ts ++ [.closing b])) =
        some ⟨(f.grow (.opening b :: (ts ++ [.closing b]))).withLone l, out⟩ := by
  obtain ⟨g, hraw, -, hrun⟩ := run_balanced h {}
  rw [List.nil_append] at hraw
  refine ⟨(f.group b ts g.value).lone, fun hs => ?_, fun out => ?_⟩
  · simp [Frame.group, hs]
  · rw [State.run_cons, State.next, Option.bind_some, State.run_append, hrun]
    simp [State.run, State.next, hraw, Frame.group, Frame.grow, Frame.withLone]

theorem grows_bracket (h : Balanced ts) (b : Bracket) :
    Grows (.opening b :: (ts ++ [.closing b])) := by
  refine ⟨h.bracket b, caseClosed_bracket ts b, ?_⟩
  intro f hs _ _ _ out
  obtain ⟨l, hl, hrun⟩ := run_bracket h f b
  rw [hrun, hl hs]
  rfl

/-- BETWEEN, its low end, its AND and its high end. -/
theorem grows_between {lo hi : List (Tok ℕ)} (hlo : lo ≠ []) (hhi : hi ≠ [])
    (hl : ∀ t ∈ lo, Plain t) (hh : ∀ t ∈ hi, Plain t) :
    Grows (.word ['B', 'E', 'T', 'W', 'E', 'E', 'N'] :: (lo ++ Link.and.tok :: hi)) := by
  have hbetween : keywordOf (.word ['B', 'E', 'T', 'W', 'E', 'E', 'N']) = some .between := by decide
  have hand : keywordOf Link.and.tok = some .and := by decide
  have hword : isOperator Link.and.tok = false := by decide
  refine ⟨?_, ?_, ?_⟩
  · refine Balanced.cons trivial ((balanced_of_plain hl).append ?_)
    exact Balanced.cons Link.and.flat_tok (balanced_of_plain hh)
  · have := (caseClosed_of_plain hhi hh).append
      (.word ['B', 'E', 'T', 'W', 'E', 'E', 'N'] :: (lo ++ [Link.and.tok]))
    simpa using this
  · intro f hs hc hb hcs out
    have hfirst : State.next ⟨f, out⟩ (.word ['B', 'E', 'T', 'W', 'E', 'E', 'N']) =
        some ⟨{ f.grow [.word ['B', 'E', 'T', 'W', 'E', 'E', 'N']] with betweens := 1 }, out⟩ := by
      simp [State.next, Frame.push, Frame.structural, hbetween, hcs, hs, hb, hc, Frame.add,
        Frame.grow]
    have hopen : Frame.endsInCase
        { f.grow [.word ['B', 'E', 'T', 'W', 'E', 'E', 'N']] with betweens := 1 } = false := by
      simp [Frame.endsInCase, Frame.grow, hbetween]
    have hmid : (Frame.grow { f.grow [.word ['B', 'E', 'T', 'W', 'E', 'E', 'N']] with
        betweens := 1 } lo).push Link.and.tok =
        (f.grow [.word ['B', 'E', 'T', 'W', 'E', 'E', 'N']]).grow (lo ++ [Link.and.tok]) := by
      simp [Frame.push, Frame.structural, hand, hword, Frame.add, Frame.grow, hcs, hb]
    have hclosed : CaseClosed (lo ++ [Link.and.tok]) := ⟨lo, Link.and.tok, rfl, by simp [hand]⟩
    rw [State.run_cons, hfirst, Option.bind_some, State.run_append, run_plain hopen hlo hl,
      Option.bind_some, State.run_cons, next_of_flat Link.and.flat_tok, Option.bind_some]
    simp only [hmid]
    rw [run_plain (hclosed.grow _) hhi hh]
    simp [Frame.grow_grow]

/-! ## Columns -/

/-- The tokens of a column: its name, or an expression that opens with a parenthesis. -/
inductive Column : List (Tok ℕ) → Prop
  | name (w : List Char) : Column [.word w]
  | expr {ts us : List (Tok ℕ)} (hts : Balanced ts) (hne : us ≠ []) (hus : ∀ t ∈ us, Plain t) :
      Column (.opening .paren :: (ts ++ [.closing .paren]) ++ us)

/-- A name that is a keyword of the condition around it. -/
def reserved : List (Tok ℕ) → Bool
  | [t] => decide (keywordOf t ∈ [some .and, some .or, some .caseBegin])
  | _ => false

/-- The reading of an atom that compares a column. -/
def columnValue (hs ts : List (Tok ℕ)) : Option Cond :=
  if reserved hs then none else some (.atom (hs ++ ts))

/-- A frame that only grew by an operand's tokens reads them as an atom. -/
theorem reads_grow (hf : f.Fresh) (hne : ts ≠ []) : f.Reads (f.grow ts) (some (.atom ts)) := by
  refine ⟨rfl, rfl, hf.betweens, hf.cases, hf.bad, ?_⟩
  simp [Frame.operand, Frame.grow, hf.seg, hne]

/-- A column, an operator and what it is compared with make an operand. -/
theorem operand_column {hs : List (Tok ℕ)} (hcol : Column hs) (hop : isOperator t)
    (hgrows : Grows (t :: ts)) : Operand (hs ++ t :: ts) (columnValue hs (t :: ts)) := by
  cases hcol with
  | name w =>
    refine ⟨Balanced.cons trivial hgrows.balanced, fun f hf => ?_⟩
    have hnext (out) : State.next ⟨f, out⟩ (.word w) = some ⟨f.push (.word w), out⟩ := rfl
    have hrun (out) : State.run ⟨f, out⟩ ([.word w] ++ t :: ts) =
        State.run ⟨f.push (.word w), out⟩ (t :: ts) := by
      rw [List.singleton_append, State.run_cons, hnext, Option.bind_some]
    have hcase : f.endsInCase = false := by simp [Frame.endsInCase, hf.seg]
    by_cases hr : reserved [.word w]
    · -- The operand is spoilt at its first or its second token.
      have hspoilt : ((f.push (.word w)).push t).bad := by
        simp only [reserved, List.mem_cons, List.not_mem_nil, or_false, decide_eq_true_eq] at hr
        rcases hr with hr | hr | hr
        · refine Frame.push_bad ?_ t
          simp [Frame.push, Frame.structural, hr, hf.cases, hf.betweens, Frame.afterAnd,
            Frame.conjoined, Frame.operand, hf.seg]
        · refine Frame.push_bad ?_ t
          simp [Frame.push, Frame.structural, hr, hf.cases, hf.betweens, Frame.afterOr,
            Frame.conjoined, Frame.operand, hf.seg]
        · have : (f.push (.word w)).endsInCase := by
            simp [Frame.push, Frame.structural, hr, Frame.endsInCase, Frame.add]
          show (_ || (isOperator t && (f.push (.word w)).endsInCase)) = true
          simp [hop, this]
      have hflat : Flat t := by cases t <;> simp_all [isOperator, Flat]
      have hbal : Balanced ts := by
        have := hgrows.balanced
        rwa [Balanced, nestAll, nest_of_flat hflat, Option.bind_some] at this
      obtain ⟨f', -, hbad, hrest⟩ := run_balanced hbal ((f.push (.word w)).push t)
      refine ⟨f', ?_, fun out => ?_⟩
      · rw [columnValue, if_pos hr]
        exact .inl (hbad hspoilt)
      · rw [hrun, State.run_cons, next_of_flat hflat, Option.bind_some]
        exact hrest out
    · -- The name opens the operand, whatever word it is.
      have hpush : f.push (.word w) = f.grow [.word w] := by
        simp only [reserved, List.mem_cons, List.not_mem_nil, or_false, decide_eq_true_eq,
          not_or] at hr
        have hstruct : f.structural (.word w) = f.add (.word w) := by
          unfold Frame.structural
          split <;> simp_all [hf.seg, hf.cases, Frame.add]
        simp [Frame.push, hstruct, hcase, Frame.add, Frame.grow]
      have hgrow := hgrows.runs (f.grow [.word w]) (by simp [Frame.grow])
        (by simp_all [Frame.endsInCase, Frame.grow, hf.seg, reserved]) hf.betweens hf.cases
      refine ⟨f.grow ([.word w] ++ t :: ts), ?_, fun out => ?_⟩
      · rw [columnValue, if_neg hr]
        exact reads_grow hf (by simp)
      · rw [hrun, hpush, hgrow, Frame.grow_grow]
  | @expr ins us hts hne hus =>
    have hrest := (grows_plain hne hus).append hgrows
    rw [columnValue, if_neg (by simp [reserved]), List.append_assoc]
    refine ⟨(hts.bracket .paren).append hrest.balanced, fun f hf => ?_⟩
    obtain ⟨l, -, hrun⟩ := run_bracket hts f .paren
    refine ⟨_, reads_grow hf (by simp), fun out => ?_⟩
    have hclosed := (caseClosed_bracket ins .paren).grow f
    have hgrow := hrest.runs ((f.grow _).withLone l) (by simp [Frame.grow, Frame.withLone]) hclosed
      hf.betweens hf.cases
    rw [State.run_append, hrun, Option.bind_some, hgrow, Frame.withLone_grow, Frame.grow_grow]

end Backbone.Sql
