import Backbone.Orm.Groups

/-!
# The SQL of a keyset predicate

A keyset predicate is a disjunction of terms in parentheses, each a chain of comparisons. Its text is
a group of its own, and in its place behind a filter's parameters it says what it says alone.
-/

namespace Backbone.Orm

open Sql Text

variable {ρ : Type*} {op : FilterOperator} {before cols : List KeyColumn}
  {P : FilterCondition → Prop} (c : KeyColumn) {c : KeyColumn} {ps : List CondChain} {M : Meaning ρ}

/-! ## Terms as chains -/

/-- The comparison of a key column as a condition. -/
def KeyColumn.cond (c : KeyColumn) (op : FilterOperator) : FilterCondition where
  field := c.name
  operator := op
  value := .single c.value
  columnType := c.cast

/-- The comparisons of one term. -/
def termConds (before : List KeyColumn) (c : KeyColumn) : List FilterCondition :=
  before.map (·.cond .equal) ++ [c.cond c.strict]

/-- A key column that compares: with a strict operator, under a name and a cast SQL can hold. -/
structure KeyColumn.Named (c : KeyColumn) : Prop where
  name : ColumnText c.name
  cast : ∀ t ∈ c.cast, TypeName t
  strict : c.strict = .greaterThan ∨ c.strict = .lessThan

theorem KeyColumn.Named.wellNamed (h : c.Named) (hop : op ≠ .or) : (c.cond op).WellNamed :=
  ⟨h.name, h.cast, hop⟩

/-- The comparing operators a key column is written with. -/
def Compares (op : FilterOperator) : Prop := op = .equal ∨ op = .greaterThan ∨ op = .lessThan

theorem KeyColumn.compare_eq (h : Compares op) (k : ℕ) : c.compare op k = (c.cond op).sql k := by
  rcases h with rfl | rfl | rfl <;> rfl

theorem KeyColumn.slots_cond (h : Compares op) : (c.cond op).slots = 1 := by
  rcases h with rfl | rfl | rfl <;> rfl

theorem KeyColumn.getParams_cond (h : Compares op) : (c.cond op).getParams = [c.value] := by
  rcases h with rfl | rfl | rfl <;> rfl

theorem KeyColumn.Named.compares (h : c.Named) : Compares c.strict :=
  .inr h.strict

section Terms

variable {before : List KeyColumn} {c : KeyColumn}

theorem mem_termConds {d : FilterCondition} (hc : c.Named) (hd : d ∈ termConds before c) :
    ∃ x op, (x ∈ before ∨ x = c) ∧ Compares op ∧ d = x.cond op := by
  rcases List.mem_append.mp hd with hd | hd
  · obtain ⟨x, hx, rfl⟩ := List.mem_map.mp hd
    exact ⟨x, .equal, .inl hx, .inl rfl, rfl⟩
  · exact ⟨c, c.strict, .inr rfl, hc.compares, List.mem_singleton.mp hd⟩

theorem wellNamed_termConds (hb : ∀ x ∈ before, x.Named) (hc : c.Named) :
    ∀ d ∈ termConds before c, d.WellNamed ∧ d.Full ∧ d.slots = 1 ∧ d.logical = .and := by
  intro d hd
  obtain ⟨x, op, hx, hop, rfl⟩ := mem_termConds hc hd
  have hx : x.Named := by
    rcases hx with hx | rfl
    · exact hb x hx
    · exact hc
  have hne : op ≠ .or := by rcases hop with rfl | rfl | rfl <;> decide
  refine ⟨hx.wellNamed hne, ?_, x.slots_cond hop, rfl⟩
  rw [FilterCondition.Full, x.getParams_cond hop, x.slots_cond hop]
  rfl

/-- The comparisons of one term, the first apart. -/
def termChain (before : List KeyColumn) (c : KeyColumn) : FilterCondition × List FilterCondition :=
  match before with
  | [] => (c.cond c.strict, [])
  | x :: before => (x.cond .equal, termConds before c)

theorem termChain_eq (before : List KeyColumn) (c : KeyColumn) :
    (termChain before c).1 :: (termChain before c).2 = termConds before c := by
  cases before <;> rfl

/-- A term is a chain in parentheses. -/
theorem keysetTerm_eq (hb : ∀ x ∈ before, x.Named) (hc : c.Named) (k : ℕ) :
    keysetTerm before c k = parenText (chainText k (termChain before c).1 (termChain before c).2) := by
  have hall := wellNamed_termConds hb hc
  rw [← termChain_eq] at hall
  have hjoin := join_eq_chainText (l := .and) (termChain before c).1 (termChain before c).2
    (fun x hx => (hall x hx).2.2.1) (fun x hx => (hall x (List.mem_cons_of_mem _ hx)).2.2.2) k 0
  have hcmp (x : KeyColumn) (n : ℕ) : (x.cond .equal).sql n = x.compare .equal n :=
    (x.compare_eq (.inl rfl) n).symm
  have hstrict (n : ℕ) : (c.cond c.strict).sql n = c.compare c.strict n :=
    (c.compare_eq hc.compares n).symm
  rw [keysetTerm, parenText, ← Nat.add_zero k, ← hjoin, termChain_eq]
  simp [termConds, List.zipIdx_append, List.zipIdx_map, hcmp, hstrict, Function.comp_def,
    FilterLogical.text]

theorem chainSlots_termConds (hb : ∀ x ∈ before, x.Named) (hc : c.Named) :
    chainSlots (termConds before c) = before.length + 1 := by
  have hall := wellNamed_termConds hb hc
  have hones : (termConds before c).map FilterCondition.slots =
      List.replicate (termConds before c).length 1 :=
    List.map_eq_replicate_iff.mpr fun d hd => (hall d hd).2.2.1
  rw [chainSlots, hones]
  simp [termConds]

theorem chainParams_termConds (hc : c.Named) :
    chainParams (termConds before c) = before.map KeyColumn.value ++ [c.value] := by
  have heq : (fun x : KeyColumn => (x.cond .equal).getParams) = fun x => [x.value] := by
    funext x
    exact x.getParams_cond (.inl rfl)
  simp [chainParams, termConds, List.flatMap_map, heq, c.getParams_cond hc.compares,
    ← List.map_eq_flatMap]

end Terms

/-! ## The predicate -/

/-- A chain of conditions, the first apart. -/
abbrev CondChain := FilterCondition × List FilterCondition

/-- The chains of a keyset predicate's terms. -/
def keysetChains (before : List KeyColumn) : List KeyColumn → List CondChain
  | [] => []
  | c :: rest => termChain before c :: keysetChains (before ++ [c]) rest

/-- The texts of chains, numbered one after the other. -/
def chainTexts (k : ℕ) : List CondChain → List String
  | [] => []
  | p :: rest => chainText k p.1 p.2 :: chainTexts (k + chainSlots (p.1 :: p.2)) rest

/-- The parameters of chains one after the other. -/
def chainsParams (ps : List CondChain) : List String := ps.flatMap fun p => chainParams (p.1 :: p.2)

theorem keysetTerms_eq (hb : ∀ x ∈ before, x.Named) (hc : ∀ x ∈ cols, x.Named) (k : ℕ) :
    keysetTerms before cols k = ((chainTexts k (keysetChains before cols)).map parenText,
      chainsParams (keysetChains before cols)) := by
  induction cols generalizing before k with
  | nil => rfl
  | cons c cols ih =>
    obtain ⟨hc, hcols⟩ := List.forall_mem_cons.mp hc
    have hnext : ∀ x ∈ before ++ [c], x.Named := by
      simpa [or_imp, forall_and] using ⟨hb, hc⟩
    have hslots : chainSlots ((termChain before c).1 :: (termChain before c).2) =
        before.length + 1 := by
      rw [termChain_eq, chainSlots_termConds hb hc]
    have hparams : chainParams ((termChain before c).1 :: (termChain before c).2) =
        before.map KeyColumn.value ++ [c.value] := by
      rw [termChain_eq, chainParams_termConds hc]
    rw [keysetTerms, ih hnext hcols, keysetTerm_eq hb hc]
    simp [keysetChains, chainTexts, chainsParams, hslots, hparams, Nat.add_assoc]

/-- A chain of ANDs whose conditions are named and hold their parameters. -/
structure ChainOk (p : CondChain) : Prop where
  named : ∀ d ∈ p.1 :: p.2, d.WellNamed
  full : ∀ d ∈ p.1 :: p.2, d.Full
  conj : ∀ d ∈ p.2, d.logical = .and

theorem chainOk_keysetChains (hb : ∀ x ∈ before, x.Named) (hc : ∀ x ∈ cols, x.Named) :
    ∀ p ∈ keysetChains before cols, ChainOk p := by
  induction cols generalizing before with
  | nil => simp [keysetChains]
  | cons c cols ih =>
    obtain ⟨hc, hcols⟩ := List.forall_mem_cons.mp hc
    have hnext : ∀ x ∈ before ++ [c], x.Named := by
      simpa [or_imp, forall_and] using ⟨hb, hc⟩
    have hall := wellNamed_termConds hb hc
    rw [← termChain_eq] at hall
    intro p hp
    rcases List.mem_cons.mp hp with rfl | hp
    · exact ⟨fun d hd => (hall d hd).1, fun d hd => (hall d hd).2.1,
        fun d hd => (hall d (List.mem_cons_of_mem _ hd)).2.2.2⟩
    · exact ih hnext hcols p hp

/-- Some column compares strictly, and the columns before it are equal. -/
def LexHolds (P : FilterCondition → Prop) : List KeyColumn → Prop
  | [] => False
  | c :: cols => P (c.cond c.strict) ∨ P (c.cond .equal) ∧ LexHolds P cols

/-- The terms spell the lexicographic comparison out. -/
theorem exists_keysetChains (before cols : List KeyColumn) :
    (∃ q ∈ keysetChains before cols, ∀ d ∈ q.1 :: q.2, P d) ↔
      (∀ c ∈ before, P (c.cond .equal)) ∧ LexHolds P cols := by
  induction cols generalizing before with
  | nil => simp [keysetChains, LexHolds]
  | cons c cols ih =>
    rw [keysetChains, List.exists_mem_cons_iff, ih, termChain_eq]
    simp only [termConds, List.forall_mem_append, List.forall_mem_map, List.forall_mem_singleton,
      LexHolds]
    tauto

theorem forall_keysetChains (hnamed : ∀ c ∈ cols, c.Named)
    (h : ∀ c ∈ before ++ cols, ∀ op, Compares op → P (c.cond op)) :
    ∀ q ∈ keysetChains before cols, ∀ d ∈ q.1 :: q.2, P d := by
  induction cols generalizing before with
  | nil => simp [keysetChains]
  | cons c cols ih =>
    obtain ⟨hc, hcols⟩ := List.forall_mem_cons.mp hnamed
    rw [keysetChains, List.forall_mem_cons, termChain_eq]
    refine ⟨fun d hd => ?_, ih hcols (by simpa using h)⟩
    obtain ⟨x, op, hx, hop, rfl⟩ := mem_termConds hc hd
    refine h x ?_ op hop
    rcases hx with hx | rfl <;> simp_all

theorem group_chainTexts (h : ∀ p ∈ ps, ChainOk p) (k : ℕ) :
    ∀ t ∈ chainTexts k ps, GroupText t := by
  induction ps generalizing k with
  | nil => simp [chainTexts]
  | cons p ps ih =>
    obtain ⟨hp, hps⟩ := List.forall_mem_cons.mp h
    obtain ⟨h1, h2⟩ := List.forall_mem_cons.mp hp.named
    intro t ht
    rcases List.mem_cons.mp ht with rfl | ht
    · exact group_chainText h1 h2 k
    · exact ih hps _ t ht

/-- A term holds when all its comparisons do. -/
theorem conditionsHold_term {r : ρ} {q : CondChain}
    (h : ChainOk q) :
    ConditionsHold M r (q.1 :: q.2) ↔ ∀ d ∈ q.1 :: q.2, d.HoldsAlone M r := by
  have hlink : (q.2.map fun d => (d.logical.link, d)) = q.2.map fun d => (Link.and, d) :=
    List.map_congr_left fun d hd => by rw [h.conj d hd]; rfl
  rw [ConditionsHold, hlink, ChainHolds, someRun_and, List.forall_mem_map, ← List.forall_mem_cons,
    ← List.forall_mem_cons, and_iff_right_iff_imp]
  exact fun h d hd => valid_of_holds (h d hd)

/-- The chains in their places say what they say on their own. -/
theorem forall₂_chainTexts {r : ρ} {vals : List String}
    (h : ∀ p ∈ ps, ChainOk p) (pre post : List String)
    (hvals : vals = pre ++ chainsParams ps ++ post) :
    List.Forall₂ (fun t p =>
        (valid M vals (read t) ↔ ∀ d ∈ p.1 :: p.2, d.Evaluates M) ∧
        (holds M vals (read t) r ↔ ConditionsHold M r (p.1 :: p.2)))
      (chainTexts (1 + pre.length) ps) ps := by
  induction ps generalizing pre with
  | nil => exact .nil
  | cons p ps ih =>
    obtain ⟨hp, hps⟩ := List.forall_mem_cons.mp h
    obtain ⟨h1, h2⟩ := List.forall_mem_cons.mp hp.named
    obtain ⟨f1, f2⟩ := List.forall_mem_cons.mp hp.full
    have hhere : vals = pre ++ chainParams (p.1 :: p.2) ++ (chainsParams ps ++ post) := by
      simp [hvals, chainsParams]
    have hlen : (chainParams (p.1 :: p.2)).length = chainSlots (p.1 :: p.2) :=
      length_chainParams hp.full
    have hnext : 1 + pre.length + chainSlots (p.1 :: p.2) =
        1 + (pre ++ chainParams (p.1 :: p.2)).length := by
      rw [List.length_append, hlen]
      omega
    refine .cons ⟨?_, ?_⟩ ?_
    · rw [read_chainText h1 h2, hhere, valid_chain h1 h2 f1 f2, List.forall_mem_cons]
    · rw [read_chainText h1 h2, hhere, holds_chain h1 h2 f1 f2, ConditionsHold]
    · rw [hnext]
      exact ih hps _ (by simp [hvals, chainsParams])

section Predicate

variable {p : CursorPayload} {casts : List (Option String)} {backwards : Bool}

/-- A cursor's columns, as the sort of a request names them, with casts from the catalog. -/
structure KeysetNamed (p : CursorPayload) (casts : List (Option String)) : Prop where
  columns : ∀ f ∈ p.f, ColumnText f
  casts : ∀ c ∈ casts, ∀ t ∈ c, TypeName t

theorem strictOperator_or (ascending backwards : Bool) :
    strictOperator ascending backwards = .greaterThan ∨
      strictOperator ascending backwards = .lessThan := by
  cases ascending <;> cases backwards <;> simp [strictOperator]

theorem named_tiebreaker (p : CursorPayload) (backwards : Bool) :
    (p.tiebreaker backwards).Named where
  name := show ColumnText "id" from columnText_of_all (by decide) (by decide)
  cast t ht := by
    cases ht
    exact ⟨rfl, by decide, rfl, ⟨_, _, rfl, by decide⟩⟩
  strict := strictOperator_or ..

theorem named_keyColumns (h : KeysetNamed p casts) (backwards : Bool) :
    ∀ c ∈ p.keyColumns casts backwards, c.Named := by
  intro c hc
  rcases List.mem_append.mp hc with hc | hc
  · obtain ⟨⟨f, i⟩, hx, rfl⟩ := List.mem_map.mp hc
    refine ⟨h.columns f (List.fst_mem_of_mem_zipIdx hx), fun t ht => ?_, strictOperator_or ..⟩
    exact h.casts _ (List.mem_of_getElem? (Option.join_eq_some_iff.mp ht)) t rfl
  · split at hc
    · cases hc
    · rw [List.mem_singleton.mp hc]
      exact named_tiebreaker p backwards

theorem keyColumns_ne_nil (p : CursorPayload) (casts : List (Option String)) (backwards : Bool) :
    p.keyColumns casts backwards ≠ [] := by
  unfold CursorPayload.keyColumns CursorPayload.columns
  cases h : p.f with
  | nil => simp
  | cons f fs => simp

/-- The chains of a cursor's keyset predicate. -/
def CursorPayload.chains (p : CursorPayload) (casts : List (Option String)) (backwards : Bool) :
    List CondChain :=
  keysetChains [] (p.keyColumns casts backwards)

theorem buildKeysetPredicate_eq (h : KeysetNamed p casts) (backwards : Bool) (k : ℕ) :
    buildKeysetPredicate p k casts backwards =
      (join " OR " ((chainTexts k (p.chains casts backwards)).map parenText),
        chainsParams (p.chains casts backwards)) := by
  rw [buildKeysetPredicate, keysetTerms_eq (by simp) (named_keyColumns h backwards)]
  rfl

theorem chains_eq_cons (p : CursorPayload) (casts : List (Option String)) (backwards : Bool) :
    ∃ q qs, p.chains casts backwards = q :: qs := by
  obtain ⟨c, cs, h⟩ := List.exists_cons_of_ne_nil (keyColumns_ne_nil p casts backwards)
  exact ⟨_, _, by rw [CursorPayload.chains, h, keysetChains]⟩

section

variable (h : KeysetNamed p casts) (backwards : Bool) {M : Meaning ρ} (pre : List String)
include h

theorem chainOk_chains : ∀ q ∈ p.chains casts backwards, ChainOk q :=
  chainOk_keysetChains (by simp) (named_keyColumns h backwards)

/-- A keyset predicate's text is a group. -/
theorem group_keyset (k : ℕ) : GroupText (buildKeysetPredicate p k casts backwards).1 := by
  obtain ⟨q, qs, hq⟩ := chains_eq_cons p casts backwards
  have hgroups := group_chainTexts (chainOk_chains h backwards) k
  rw [hq, chainTexts] at hgroups
  obtain ⟨h1, h2⟩ := List.forall_mem_cons.mp hgroups
  rw [buildKeysetPredicate_eq h, hq, chainTexts]
  exact group_groups .or h1 h2

/-- Behind any parameters, the predicate holds when some term does; every term must evaluate. -/
theorem holds_keyset_iff {r : ρ} :
    holds M (pre ++ (buildKeysetPredicate p (1 + pre.length) casts backwards).2)
        (read (buildKeysetPredicate p (1 + pre.length) casts backwards).1) r ↔
      (∀ q ∈ p.chains casts backwards, ∀ d ∈ q.1 :: q.2, d.Evaluates M) ∧
        ∃ q ∈ p.chains casts backwards, ∀ d ∈ q.1 :: q.2, d.HoldsAlone M r := by
  obtain ⟨q, qs, hq⟩ := chains_eq_cons p casts backwards
  have hok := chainOk_chains h backwards
  rw [buildKeysetPredicate_eq h, hq]
  rw [hq] at hok
  have hgroups := group_chainTexts hok (1 + pre.length)
  rw [chainTexts] at hgroups ⊢
  obtain ⟨h1, h2⟩ := List.forall_mem_cons.mp hgroups
  have hmean := forall₂_chainTexts (M := M) (r := r) hok pre [] rfl
  rw [chainTexts, List.append_nil] at hmean
  obtain ⟨hfirst, hrest⟩ := List.forall₂_cons.mp hmean
  have hchain : ChainHolds (fun v => valid M (pre ++ chainsParams (q :: qs)) v)
      (fun v => holds M (pre ++ chainsParams (q :: qs)) v r)
      (read (chainText (1 + pre.length) q.1 q.2))
      ((chainTexts (1 + pre.length + chainSlots (q.1 :: q.2)) qs).map fun t => (Link.or, read t)) ↔
      ChainHolds (fun p : CondChain => ∀ d ∈ p.1 :: p.2, d.Evaluates M)
        (fun p => ConditionsHold M r (p.1 :: p.2)) q (qs.map fun p => (Link.or, p)) := by
    refine chainHolds_congr hfirst ?_
    rw [List.forall₂_map_left_iff, List.forall₂_map_right_iff]
    exact hrest.imp fun t p htp => ⟨rfl, htp⟩
  rw [show (" OR " : String) = FilterLogical.or.text from rfl, read_groups .or h1 h2,
    holds_chainValue]
  have hterms : (∃ t ∈ q :: qs, ConditionsHold M r (t.1 :: t.2)) ↔
      ∃ t ∈ q :: qs, ∀ d ∈ t.1 :: t.2, d.HoldsAlone M r :=
    exists_congr fun t => and_congr_right fun ht => conditionsHold_term (hok t ht)
  refine hchain.trans ?_
  rw [← hterms]
  simp only [ChainHolds, someRun_or, List.forall_mem_map, List.forall_mem_cons,
    List.exists_mem_cons_iff]

/-- A keyset predicate behind any parameters says what it says on its own. -/
theorem holds_keyset {r : ρ} :
    holds M (pre ++ (buildKeysetPredicate p (1 + pre.length) casts backwards).2)
        (read (buildKeysetPredicate p (1 + pre.length) casts backwards).1) r ↔
      holds M (buildKeysetPredicate p 1 casts backwards).2
        (read (buildKeysetPredicate p 1 casts backwards).1) r := by
  rw [holds_keyset_iff h backwards pre]
  exact (holds_keyset_iff h backwards []).symm

end

end Predicate

end Backbone.Orm
