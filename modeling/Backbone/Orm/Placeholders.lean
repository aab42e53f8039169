import Backbone.Orm.ParamEffects
import Backbone.Orm.WhereClause

/-!
# Placeholders and their values

The text of a condition and the values bound to it come from two matches over the same operators and
values. One disagreement moves every later value to another column. `placeholders_agree_iff` says for
which requests the two agree: a range that came with a single bound writes two placeholders and binds
no value.

Reference: `backbone-orm/src/filter/{condition,query,cursor}.rs`.
-/

namespace Backbone.Orm

open Sql Text

variable {cs : List FilterCondition} {c : FilterCondition} {p : ℕ × FilterCondition}
  {k : ℕ} {g : String} {gs : List String} (s : String)

/-! ## What a placeholder compares with -/

/-- The values a condition was asked with. -/
def FilterValue.values : FilterValue → List String
  | .single v => [v]
  | .multiple vs => vs
  | .null => []

/-- The pattern a value is matched as; any other operator compares with the value itself. -/
def FilterOperator.pattern (op : FilterOperator) (v : String) : String :=
  match op with
  | .contains | .notContains => "%" ++ v ++ "%"
  | .startsWith => v ++ "%"
  | .endsWith => "%" ++ v
  | _ => v

/-- What a placeholder of a condition compares the column with: the value in its place. -/
def FilterCondition.comparand (c : FilterCondition) (slot : ℕ) : Option String :=
  c.value.values[slot]?.map c.operator.pattern

/-- Conditions with the number of the first placeholder of each. -/
def numbered (k : ℕ) : List FilterCondition → List (ℕ × FilterCondition)
  | [] => []
  | c :: cs => (k, c) :: numbered (k + c.slots) cs

/-- The text of a clause and its parameters agree, for the conditions it is written from. -/
structure Agrees (text : String) (ps : List String) (cs : List FilterCondition) : Prop where
  /-- The placeholders are `$1` to `$n`, each once and in order, and there are `n` parameters. -/
  numbers : placeholders text = List.range' 1 ps.length
  /-- No placeholder but those of the conditions. -/
  count : ps.length = chainSlots cs
  /-- Each condition is written with the placeholders behind those of the conditions before it. -/
  written : ∀ p ∈ numbered 1 cs, (p.2.sql p.1).toList <:+: text.toList ∧
    placeholders (p.2.sql p.1) = List.range' p.1 p.2.slots
  /-- The parameter of a placeholder is the value its condition compares with. -/
  bound : ∀ p ∈ numbered 1 cs, ∀ slot < p.2.slots,
    ∃ v, p.2.comparand slot = some v ∧ ps[p.1 + slot - 1]? = some v

/-- The conditions of a clause, in the order they are written. -/
def clauseConditions (q : QueryFilter) : List FilterCondition := searchConditions q ++ q.conditions

/-- The comparisons of a keyset predicate, in the order they are written. -/
def keysetConditions (p : CursorPayload) (casts : List (Option String)) (backwards : Bool) :
    List FilterCondition :=
  (p.chains casts backwards).flatMap fun q => q.1 :: q.2

/-- The clause of a filter agrees with its parameters, alone and with a keyset predicate that goes on
with the numbering. -/
structure PlaceholdersAgree (q : QueryFilter) : Prop where
  clause : Agrees q.buildWhereClause.1 q.buildWhereClause.2 (clauseConditions q)
  walk : ∀ p casts backwards, KeysetNamed p casts →
    Agrees (walkClause q p casts backwards).1 (walkClause q p casts backwards).2
      (clauseConditions q ++ keysetConditions p casts backwards)

/-! ## One condition -/

/-- A condition with all its parameters binds them to the values it compares with. -/
theorem getParams_getElem? (hfull : c.Full) (hval : c.value.values ≠ []) {slot : ℕ}
    (h : slot < c.slots) : c.getParams[slot]? = c.comparand slot := by
  obtain ⟨field, op, value, logical, ty⟩ := c
  cases value with
  | null => exact absurd rfl hval
  | single v =>
    have hlt : slot < 1 := by
      cases op <;> simp [FilterCondition.Full, FilterCondition.getParams, FilterCondition.slots,
        FilterCondition.listSlots] at hfull h <;> omega
    obtain rfl : slot = 0 := by omega
    cases op <;> simp_all [FilterCondition.Full, FilterCondition.getParams, FilterCondition.slots,
      FilterCondition.comparand, FilterValue.values, FilterOperator.pattern]
  | multiple vs =>
    have hvs : vs ≠ [] := hval
    obtain ⟨v, vs, rfl⟩ := List.exists_cons_of_ne_nil hvs
    cases op
    case isNull | isNotNull => exact absurd h (Nat.not_lt_zero slot)
    case isIn | notIn => exact Option.map_id'.symm
    case between | notBetween =>
      rcases vs with _ | ⟨hi, vs⟩
      · cases hfull
      · have h : slot < 2 := h
        have hslot : slot = 0 ∨ slot = 1 := by omega
        rcases hslot with rfl | rfl <;> rfl
    all_goals
      have h : slot < 1 := h
      obtain rfl : slot = 0 := by omega
      rfl

theorem placeholders_sql (h : c.WellNamed) (k : ℕ) :
    placeholders (c.sql k) = List.range' k c.slots := by
  rw [placeholders, toks_of_lexes (FilterCondition.lexes_sql h k), holes_append, h.field.holes,
    FilterCondition.holes_tailToks h, List.range'_eq_map_range, List.nil_append]

/-! ## Conditions in a row -/

theorem numbered_append (k : ℕ) (cs ds : List FilterCondition) :
    numbered k (cs ++ ds) = numbered k cs ++ numbered (k + chainSlots cs) ds := by
  induction cs generalizing k with
  | nil => rfl
  | cons c cs ih =>
    rw [List.cons_append, numbered, ih, numbered, List.cons_append, chainSlots, chainSlots,
      List.map_cons, List.sum_cons, Nat.add_assoc]

theorem mem_of_numbered (h : p ∈ numbered k cs) : p.2 ∈ cs := by
  induction cs generalizing k with
  | nil => cases h
  | cons c cs ih =>
    rcases List.mem_cons.mp h with rfl | h
    · exact List.mem_cons_self
    · exact List.mem_cons_of_mem _ (ih h)

/-- The parameters of conditions in a row stand where the numbering expects them. -/
theorem bound_numbered (hfull : ∀ c ∈ cs, c.Full) (hval : ∀ c ∈ cs, c.value.values ≠ [])
    (pre : List String) :
    ∀ p ∈ numbered (1 + pre.length) cs, ∀ slot < p.2.slots,
      ∃ v, p.2.comparand slot = some v ∧ (pre ++ chainParams cs)[p.1 + slot - 1]? = some v := by
  induction cs generalizing pre with
  | nil => simp [numbered]
  | cons c cs ih =>
    obtain ⟨hc, hcs⟩ := List.forall_mem_cons.mp hfull
    obtain ⟨hv, hvs⟩ := List.forall_mem_cons.mp hval
    have hlen : c.getParams.length = c.slots := hc
    intro p hp slot hslot
    rcases List.mem_cons.mp hp with rfl | hp
    · have hslot : slot < c.slots := hslot
      have hget : c.getParams[slot]? = some (c.getParams[slot]) :=
        List.getElem?_eq_getElem (by omega)
      refine ⟨c.getParams[slot], by rw [← getParams_getElem? hc hv hslot, hget], ?_⟩
      have hindex : (1 + pre.length, c).1 + slot - 1 = pre.length + slot := by
        simp only []
        omega
      rw [hindex, List.getElem?_append_right (by omega), Nat.add_sub_cancel_left, chainParams,
        List.flatMap_cons, List.getElem?_append_left (by omega), hget]
    · have hnext : 1 + pre.length + c.slots = 1 + (pre ++ c.getParams).length := by
        rw [List.length_append, hlen]
        omega
      have hparams : pre ++ chainParams (c :: cs) = pre ++ c.getParams ++ chainParams cs := by
        simp [chainParams]
      rw [hparams]
      rw [hnext] at hp
      exact ih hcs hvs _ p hp slot hslot

/-- Conditions that are written one after the other, each named and with all its parameters. -/
theorem Agrees.of_written {text : String} (hnamed : ∀ c ∈ cs, c.WellNamed)
    (hfull : ∀ c ∈ cs, c.Full) (hval : ∀ c ∈ cs, c.value.values ≠ [])
    (hnumbers : placeholders text = List.range' 1 (chainSlots cs))
    (hwritten : ∀ p ∈ numbered 1 cs, (p.2.sql p.1).toList <:+: text.toList) :
    Agrees text (chainParams cs) cs where
  numbers := by rw [hnumbers, length_chainParams hfull]
  count := length_chainParams hfull
  written p hp := ⟨hwritten p hp, placeholders_sql (hnamed _ (mem_of_numbered hp)) _⟩
  bound := bound_numbered hfull hval []

/-! ## Texts within texts -/

theorem infix_join {sep t : String} {ts : List String} (h : t ∈ ts) :
    t.toList <:+: (join sep ts).toList := by
  induction ts with
  | nil => cases h
  | cons s ts ih =>
    cases ts with
    | nil =>
      rw [List.mem_singleton.mp h]
      exact List.infix_refl _
    | cons s' ts =>
      have hjoin : join sep (s :: s' :: ts) = s ++ sep ++ join sep (s' :: ts) := rfl
      rw [hjoin, String.toList_append, String.toList_append]
      rcases List.mem_cons.mp h with rfl | h
      · exact ⟨[], _, by rw [List.nil_append, List.append_assoc]⟩
      · exact (ih h).trans (List.suffix_append _ _).isInfix

theorem infix_parenText : s.toList <:+: (parenText s).toList :=
  ⟨"(".toList, ")".toList, by simp [parenText]⟩

theorem infix_bodyOf (h : g ∈ gs) : g.toList <:+: (bodyOf gs).toList := by
  rcases gs with _ | ⟨g', _ | ⟨g'', gs⟩⟩
  · cases h
  · rw [List.mem_singleton.mp h]
    exact List.infix_refl _
  · exact (infix_parenText g).trans (infix_join (List.mem_map_of_mem h))

theorem infix_where : s.toList <:+: (" WHERE " ++ s).toList :=
  ⟨" WHERE ".toList, [], by simp⟩

theorem infix_whereOf (h : g ∈ gs) : g.toList <:+: (QueryFilter.whereOf gs).toList := by
  rw [whereOf_eq (List.ne_nil_of_mem h)]
  exact (infix_bodyOf h).trans (infix_where _)

theorem infix_chainText {rest : List FilterCondition} :
    ∀ p ∈ numbered k (c :: rest), (p.2.sql p.1).toList <:+: (chainText k c rest).toList := by
  induction rest generalizing c k with
  | nil =>
    intro p hp
    rw [List.mem_singleton.mp hp]
    exact List.infix_refl _
  | cons d rest ih =>
    intro p hp
    rw [chainText, String.toList_append, String.toList_append]
    rcases List.mem_cons.mp hp with rfl | hp
    · exact ⟨[], _, by rw [List.nil_append, List.append_assoc]⟩
    · exact (ih p hp).trans (List.suffix_append _ _).isInfix

theorem infix_chainGroup (h : p ∈ numbered k cs) :
    ∃ g ∈ chainGroup k cs, (p.2.sql p.1).toList <:+: g.toList := by
  cases cs with
  | nil => cases h
  | cons c rest => exact ⟨_, List.mem_singleton_self _, infix_chainText p h⟩

/-! ## The clause -/

section Clause

variable {q : QueryFilter} (hbase : ∀ b ∈ q.baseConditions, Unnumbered b)
  (hsearch : ∀ f ∈ q.searchFields, ColumnText f) (hnamed : ∀ c ∈ q.conditions, c.WellNamed)
  {ps : List CondChain}

theorem chainParams_clauseConditions (q : QueryFilter) :
    chainParams (clauseConditions q) = q.buildWhereClause.2 := by
  rw [clauseConditions, chainParams, List.flatMap_append, buildWhereClause_snd, searchParams_eq]
  rfl

theorem chainSlots_append (cs ds : List FilterCondition) :
    chainSlots (cs ++ ds) = chainSlots cs + chainSlots ds := by
  simp [chainSlots]

/-- Each condition of the clause is written in one of its groups. -/
theorem exists_group {p : ℕ × FilterCondition} (h : p ∈ numbered 1 (clauseConditions q)) :
    ∃ g ∈ q.groups, (p.2.sql p.1).toList <:+: g.toList := by
  rw [clauseConditions, numbered_append, chainSlots_searchConditions] at h
  rw [groups_eq]
  rcases List.mem_append.mp h with h | h
  · obtain ⟨g, hg, hin⟩ := infix_chainGroup h
    exact ⟨g, List.mem_append_left _ (List.mem_append_right _ hg), hin⟩
  · obtain ⟨g, hg, hin⟩ := infix_chainGroup h
    exact ⟨g, List.mem_append_right _ hg, hin⟩

theorem values_searchConditions (q : QueryFilter) :
    ∀ c ∈ searchConditions q, c.value.values ≠ [] := by
  unfold searchConditions
  cases q.activeSearch with
  | none => simp
  | some term => exact List.forall_mem_map.mpr fun f _ => List.cons_ne_nil _ _

include hsearch hnamed in
theorem wellNamed_clauseConditions : ∀ c ∈ clauseConditions q, c.WellNamed :=
  List.forall_mem_append.mpr ⟨wellNamed_searchConditions hsearch, hnamed⟩

/-! ## Behind a cursor -/

theorem placeholders_chainTexts (h : ∀ p ∈ ps, ChainOk p) (k : ℕ) :
    (chainTexts k ps).flatMap placeholders =
      List.range' k (chainSlots (ps.flatMap fun p => p.1 :: p.2)) := by
  induction ps generalizing k with
  | nil => rfl
  | cons p ps ih =>
    obtain ⟨hp, hps⟩ := List.forall_mem_cons.mp h
    have hone := placeholders_chainGroup hp.named k
    rw [chainGroup, List.flatMap_singleton] at hone
    rw [chainTexts, List.flatMap_cons, List.flatMap_cons, hone, ih hps, chainSlots_append,
      List.range'_append_1]

theorem infix_chainTexts {k : ℕ} {x : ℕ × FilterCondition}
    (h : x ∈ numbered k (ps.flatMap fun p => p.1 :: p.2)) :
    ∃ t ∈ chainTexts k ps, (x.2.sql x.1).toList <:+: t.toList := by
  induction ps generalizing k with
  | nil => cases h
  | cons p ps ih =>
    rw [List.flatMap_cons, numbered_append] at h
    rcases List.mem_append.mp h with h | h
    · exact ⟨_, List.mem_cons_self, infix_chainText x h⟩
    · obtain ⟨t, ht, hin⟩ := ih h
      exact ⟨t, List.mem_cons_of_mem _ ht, hin⟩

theorem chainsParams_eq (ps : List CondChain) :
    chainsParams ps = chainParams (ps.flatMap fun p => p.1 :: p.2) := by
  rw [chainsParams, chainParams, List.flatMap_assoc]
  rfl

section Keyset

variable {p : CursorPayload} {casts : List (Option String)} (hp : KeysetNamed p casts)
  (backwards : Bool)
include hp

theorem placeholders_keyset (k : ℕ) :
    placeholders (buildKeysetPredicate p k casts backwards).1 =
      List.range' k (chainSlots (keysetConditions p casts backwards)) := by
  obtain ⟨c, cs, hchains⟩ := chains_eq_cons p casts backwards
  have hok := chainOk_chains hp backwards
  rw [keysetConditions, ← placeholders_chainTexts hok, buildKeysetPredicate_eq hp, hchains]
  rw [hchains] at hok
  obtain ⟨hfirst, hrest⟩ := List.forall_mem_cons.mp (group_chainTexts hok k)
  exact placeholders_groups (l := .or) hfirst.lexes fun t ht => (hrest t ht).lexes

theorem infix_keyset {k : ℕ} {x : ℕ × FilterCondition}
    (h : x ∈ numbered k (keysetConditions p casts backwards)) :
    (x.2.sql x.1).toList <:+: (buildKeysetPredicate p k casts backwards).1.toList := by
  obtain ⟨t, ht, hin⟩ := infix_chainTexts h
  rw [buildKeysetPredicate_eq hp]
  exact hin.trans ((infix_parenText t).trans (infix_join (List.mem_map_of_mem ht)))

theorem keysetConditions_ok : ∀ c ∈ keysetConditions p casts backwards,
    c.WellNamed ∧ c.Full ∧ c.value.values ≠ [] := by
  intro c hc
  obtain ⟨chain, hchain, hc⟩ := List.mem_flatMap.mp hc
  have hok := chainOk_chains hp backwards chain hchain
  have hvalues : ∀ t ∈ p.chains casts backwards, ∀ d ∈ t.1 :: t.2, d.value.values ≠ [] :=
    forall_keysetChains (named_keyColumns hp backwards) fun c _ op _ => List.cons_ne_nil c.value []
  exact ⟨hok.named c hc, hok.full c hc, hvalues chain hchain c hc⟩

end Keyset

theorem placeholders_andKeysetPredicate {gs : List String} {k : String}
    (h : ∀ g ∈ gs, Lexes g.toList (toks g)) (hk : Lexes k.toList (toks k)) :
    placeholders (andKeysetPredicate (QueryFilter.whereOf gs) k) =
      gs.flatMap placeholders ++ placeholders k := by
  by_cases hne : gs = []
  · rw [hne, QueryFilter.whereOf, andKeysetPredicate_empty, placeholders_where hk]
    rfl
  · obtain ⟨hbody, hholes⟩ := placeholders_bodyOf hne h
    rw [whereOf_eq hne, andKeysetPredicate_where, placeholders_whereOf (by simp [hbody, hk]),
      List.flatMap_cons, List.flatMap_singleton, hholes]

theorem infix_andKeysetPredicate (gs : List String) (k : String) :
    (∀ g ∈ gs, g.toList <:+: (andKeysetPredicate (QueryFilter.whereOf gs) k).toList) ∧
      k.toList <:+: (andKeysetPredicate (QueryFilter.whereOf gs) k).toList := by
  by_cases hne : gs = []
  · rw [hne, QueryFilter.whereOf, andKeysetPredicate_empty]
    exact ⟨by simp, infix_where k⟩
  · rw [whereOf_eq hne, andKeysetPredicate_where]
    refine ⟨fun g hg => (infix_bodyOf hg).trans (infix_whereOf List.mem_cons_self), ?_⟩
    exact infix_whereOf (List.mem_cons_of_mem _ (List.mem_singleton_self k))

/-! ## Agreement -/

include hbase hsearch hnamed in
/-- With all their values, the conditions of a filter agree with the parameters. -/
theorem agree_of_full (hfull : ∀ c ∈ q.conditions, c.Full)
    (hval : ∀ c ∈ q.conditions, c.value.values ≠ []) : PlaceholdersAgree q := by
  have hnamed' := wellNamed_clauseConditions hsearch hnamed
  have hfull' : ∀ c ∈ clauseConditions q, c.Full :=
    List.forall_mem_append.mpr ⟨full_searchConditions q, hfull⟩
  have hval' : ∀ c ∈ clauseConditions q, c.value.values ≠ [] :=
    List.forall_mem_append.mpr ⟨values_searchConditions q, hval⟩
  have hslots : chainSlots (clauseConditions q) =
      q.searchParams.length + chainSlots q.conditions := by
    rw [clauseConditions, chainSlots_append, chainSlots_searchConditions]
  have hlex := lexes_of_mem_groups hbase hsearch hnamed
  constructor
  · rw [← chainParams_clauseConditions]
    refine .of_written hnamed' hfull' hval' ?_ fun x hx => ?_
    · rw [placeholders_clause hbase hsearch hnamed, hslots]
    · obtain ⟨g, hg, hin⟩ := exists_group hx
      exact hin.trans (infix_whereOf hg)
  · intro p casts backwards hp
    have hkey := keysetConditions_ok hp backwards
    have hlen : q.buildWhereClause.2.length = chainSlots (clauseConditions q) := by
      rw [← chainParams_clauseConditions, length_chainParams hfull']
    have hparams : (walkClause q p casts backwards).2 =
        chainParams (clauseConditions q ++ keysetConditions p casts backwards) := by
      rw [chainParams, List.flatMap_append, ← chainParams, ← chainParams,
        chainParams_clauseConditions, keysetConditions, ← chainsParams_eq, walkClause,
        buildKeysetPredicate_eq hp]
    have hnext : q.buildWhereClause.2.length + 1 = 1 + chainSlots (clauseConditions q) := by
      rw [hlen, Nat.add_comm]
    have htext : (walkClause q p casts backwards).1 =
        andKeysetPredicate (QueryFilter.whereOf q.groups)
          (buildKeysetPredicate p (1 + chainSlots (clauseConditions q)) casts backwards).1 := by
      rw [walkClause, hnext, QueryFilter.buildWhereClause]
    rw [hparams, htext]
    refine .of_written (List.forall_mem_append.mpr ⟨hnamed', fun c hc => (hkey c hc).1⟩)
      (List.forall_mem_append.mpr ⟨hfull', fun c hc => (hkey c hc).2.1⟩)
      (List.forall_mem_append.mpr ⟨hval', fun c hc => (hkey c hc).2.2⟩) ?_ fun x hx => ?_
    · rw [placeholders_andKeysetPredicate hlex (group_keyset hp backwards _).lexes,
        placeholders_of_groups hbase hsearch hnamed, placeholders_keyset hp, ← hslots,
        List.range'_append_1, chainSlots_append]
    · obtain ⟨hgroup, hkeyset⟩ := infix_andKeysetPredicate q.groups
        (buildKeysetPredicate p (1 + chainSlots (clauseConditions q)) casts backwards).1
      rw [numbered_append] at hx
      rcases List.mem_append.mp hx with hx | hx
      · obtain ⟨g, hg, hin⟩ := exists_group hx
        exact hin.trans (hgroup g hg)
      · exact (infix_keyset hp backwards hx).trans hkeyset

/-- A clause that agrees with its parameters has all its values. -/
theorem full_of_agree (hparsed : ∀ c ∈ q.conditions, c.Parsed) (h : PlaceholdersAgree q) :
    ∀ c ∈ q.conditions, c.Full := by
  have hcount := h.clause.count
  rw [clauseConditions, chainSlots_append, chainSlots_searchConditions, buildWhereClause_snd,
    List.length_append] at hcount
  exact full_of_count hparsed (by omega)

end Clause

/-- The conditions of a request carry the values it was sent with. -/
theorem values_parsed {U : CharTables} {columnTypes : ColumnTypes}
    {allowedFields : Option (List String)} {params : List (String × String)} {q : QueryFilter}
    (h : parseFilters U params columnTypes allowedFields = .ok q) :
    ∀ c ∈ q.conditions, c.value.values ≠ [] := by
  intro c hc
  obtain ⟨x, -, hx⟩ := (mem_conditions_iff h).mp hc
  obtain ⟨name, operatorStr, field, -, -, -, hcond⟩ := conditionOf_eq_some.mp hx
  have hvalues (s : String) (isArray : Bool) : (FilterValue.fromString s isArray).values ≠ [] := by
    cases isArray <;> simp [FilterValue.fromString, FilterValue.values, split, List.splitOn_ne_nil]
  rcases operatorCondition_eq_some hcond with rfl | ⟨op, isArray, rfl⟩
  · exact hvalues _ false
  · exact hvalues _ isArray

/-- The placeholders of a request's clause agree with its parameters exactly when every range it asks
for came with two values. The base conditions, the search term and the searched columns are the
repository's. -/
theorem placeholders_agree_iff {U : CharTables} {params : List (String × String)}
    {columnTypes : ColumnTypes} {allowedFields : Option (List String)} {q : QueryFilter}
    (hparse : parseFilters U params columnTypes allowedFields = .ok q)
    (htypes : ∀ t ∈ columnTypes, TypeName t.2) {base : List String}
    (hbase : ∀ b ∈ base, Unnumbered b) (search : Option String) {fields : List String}
    (hfields : ∀ f ∈ fields, ColumnText f) :
    PlaceholdersAgree
        { q with baseConditions := base, search := search, searchFields := fields } ↔
      ∀ x ∈ params, shortRange U allowedFields x = false := by
  obtain ⟨hparsed, -⟩ := parseFilters_ok htypes hparse
  have hval := values_parsed hparse
  let q' : QueryFilter := { q with baseConditions := base, search := search, searchFields := fields }
  rw [← parseFilters_full_iff hparse htypes]
  refine ⟨fun h => full_of_agree (q := q') hparsed h, fun hfull => ?_⟩
  exact agree_of_full (q := q') hbase hfields (fun c hc => (hparsed c hc).wellNamed) hfull hval

/-- A range with both bounds, a pattern and an OR, behind a search of the repository's. -/
theorem placeholders_agree_two_bounds :
    PlaceholdersAgree
      { conditions := [⟨"total", .between, .multiple ["1", "5"], .and, none⟩,
          ⟨"name", .contains, .single "ann", .and, none⟩,
          ⟨"rank", .equal, .single "3", .or, some "bigint"⟩]
        search := some "x"
        searchFields := ["name"]
        baseConditions := ["deleted_at IS NULL"] } := by
  have hparse : parseFilters asciiTables
      [("total[between]", "1,5"), ("rank[or]", "3"), ("name[contain]", "ann")]
      [("rank", "bigint")] none =
        .ok { conditions := [⟨"total", .between, .multiple ["1", "5"], .and, none⟩,
          ⟨"name", .contains, .single "ann", .and, none⟩,
          ⟨"rank", .equal, .single "3", .or, some "bigint"⟩] } := rfl
  have htypes : ∀ t ∈ [("rank", "bigint")], TypeName t.2 := by
    simp only [List.mem_singleton, forall_eq]
    exact ⟨rfl, by decide, rfl, ⟨_, _, rfl, by decide⟩⟩
  have hbase : ∀ b ∈ ["deleted_at IS NULL"], Unnumbered b := by
    simp only [List.mem_singleton, forall_eq]
    exact ⟨rfl, rfl⟩
  have hfields : ∀ f ∈ ["name"], ColumnText f := by
    simp only [List.mem_singleton, forall_eq]
    exact columnText_of_all (by decide) (by decide)
  exact (placeholders_agree_iff hparse htypes hbase (some "x") hfields).mpr (by decide)

/-- A range with a single bound writes `$1` and `$2` and binds nothing. -/
theorem not_placeholders_agree :
    ∃ q, parseFilters asciiTables [("price[between]", "5")] [] none = .ok q ∧
      q.buildWhereClause = (" WHERE price BETWEEN $1 AND $2", []) ∧ ¬ PlaceholdersAgree q := by
  let q : QueryFilter := { conditions := [⟨"price", .between, .multiple ["5"], .and, none⟩] }
  have hclause : q.buildWhereClause = (" WHERE price BETWEEN $1 AND $2", []) := by decide
  refine ⟨q, rfl, hclause, fun h => ?_⟩
  have hcount := h.clause.count
  rw [hclause] at hcount
  cases hcount

end Backbone.Orm
