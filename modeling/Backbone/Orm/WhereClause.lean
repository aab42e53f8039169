import Backbone.Orm.KeysetSql
import Backbone.Orm.ParsedFilter

/-!
# The WHERE clause says what the filter says

The clause is assembled as text from independent groups: the base conditions, the search and the
client's conditions, and a keyset predicate behind them on a cursor walk. Read with SQL's precedence,
and with the `n`-th parameter for `$n`, it selects exactly the rows that satisfy every base
condition, the search and the client's chain. `Faithful` states that of a filter;
`faithful_iff` says for which requests it is so: a BETWEEN that came with a single value has two
placeholders and binds none, and every placeholder behind it reads the wrong parameter.
-/

namespace Backbone.Orm

open Sql Text

variable {ρ : Type*} {s : String} {q : QueryFilter} {cs : List FilterCondition} {M : Meaning ρ}
  {term : String} {c : FilterCondition} {gs : List String}

/-! ## What a filter asks for -/

/-- A base condition a repository may add: without the blanks around it, a condition of its own, with
its quotes, comments and brackets closed and without placeholders. -/
structure SelfContained (s : String) : Prop where
  reads : (read (trim s)).isSome
  closed : holes (toks (trim s)) = []
  noQuery : isSubquery (toks (trim s)) = false

/-- A base condition without placeholders, whatever else it says. -/
structure Unnumbered (s : String) : Prop where
  lexes : Lexes (trim s).toList (toks (trim s))
  closed : holes (toks (trim s)) = []

/-- The row satisfies every base condition. -/
def BaseHolds (M : Meaning ρ) (q : QueryFilter) (r : ρ) : Prop :=
  ∀ b ∈ q.baseConditions, holds M [] (read (trim b)) r

/-- When a search is active, the row matches its pattern in some field. -/
def SearchHolds (M : Meaning ρ) (q : QueryFilter) (r : ρ) : Prop :=
  ∀ term, q.activeSearch = some term →
    (∀ f ∈ q.searchFields, valid M ["%" ++ term ++ "%"] (read (QueryFilter.searchSql f 1))) ∧
      ∃ f ∈ q.searchFields, holds M ["%" ++ term ++ "%"] (read (QueryFilter.searchSql f 1)) r

/-- The row satisfies the client's chain of conditions. -/
def ClientHolds (M : Meaning ρ) (q : QueryFilter) (r : ρ) : Prop := ConditionsHold M r q.conditions

/-- The row satisfies the whole filter. -/
def FilterHolds (M : Meaning ρ) (q : QueryFilter) (r : ρ) : Prop :=
  BaseHolds M q r ∧ SearchHolds M q r ∧ ClientHolds M q r

/-- The row satisfies the keyset predicate on its own. -/
def KeysetHolds (M : Meaning ρ) (p : CursorPayload) (casts : List (Option String))
    (backwards : Bool) (r : ρ) : Prop :=
  holds M (buildKeysetPredicate p 1 casts backwards).2
    (read (buildKeysetPredicate p 1 casts backwards).1) r

/-- The clause and the parameters of a cursor walk. -/
def walkClause (q : QueryFilter) (p : CursorPayload) (casts : List (Option String))
    (backwards : Bool) : String × List String :=
  let clause := q.buildWhereClause
  let keyset := buildKeysetPredicate p (clause.2.length + 1) casts backwards
  (andKeysetPredicate clause.1 keyset.1, clause.2 ++ keyset.2)

/-! ## The base conditions -/

section

variable (h : SelfContained s)
include h

theorem SelfContained.lexes : Lexes (trim s).toList (toks (trim s)) := by
  have hreads := h.reads
  unfold Sql.read at hreads
  cases ht : tokens (trim s).toList with
  | none => simp [ht] at hreads
  | some ts => exact toks_of_lexes ht ▸ ht

theorem SelfContained.unnumbered : Unnumbered s :=
  ⟨h.lexes, h.closed⟩

theorem SelfContained.group : GroupText (trim s) := by
  obtain ⟨e, he⟩ := Option.isSome_iff_exists.mp h.reads
  rw [read_of_lexes h.lexes] at he
  exact ⟨h.lexes, balanced_of_parse he, h.noQuery⟩

theorem SelfContained.ne_empty : trim s ≠ "" := by
  intro hempty
  have := h.reads
  rw [hempty] at this
  cases this

/-- A base condition means the same under any parameters. -/
theorem SelfContained.holds_eq (M : Meaning ρ) (ps : List String) (r : ρ) :
    holds M ps (read (trim s)) r = holds M [] (read (trim s)) r := by
  obtain ⟨e, he⟩ := Option.isSome_iff_exists.mp h.reads
  have hclosed : e.holes = [] := holes_of_parse h.closed (by rw [← read_of_lexes h.lexes, he])
  rw [holds, holds, he, Option.bind_some, Option.bind_some, eval_of_holes M ps hclosed]

end

theorem baseGroups_eq (h : ∀ b ∈ q.baseConditions, SelfContained b) :
    q.baseGroups = q.baseConditions.map trim := by
  rw [QueryFilter.baseGroups, List.filter_eq_self]
  intro s hs
  obtain ⟨b, hb, rfl⟩ := List.mem_map.mp hs
  simpa using (h b hb).ne_empty

theorem holds_baseGroups (h : ∀ b ∈ q.baseConditions, SelfContained b)
    (ps : List String) (r : ρ) : (∀ g ∈ q.baseGroups, holds M ps (read g) r) ↔ BaseHolds M q r := by
  rw [baseGroups_eq h, List.forall_mem_map]
  exact forall₂_congr fun b hb => by rw [(h b hb).holds_eq]

/-! ## The search and the client's conditions -/

/-- The condition that searches one field. -/
def searchCondition (term field : String) : FilterCondition where
  field := field
  operator := .contains
  value := .single term
  logical := .or

theorem wellNamed_search {f : String} (h : ColumnText f) : (searchCondition term f).WellNamed :=
  ⟨h, nofun, by simp [searchCondition]⟩

/-- The conditions of the active search. -/
def searchConditions (q : QueryFilter) : List FilterCondition :=
  match q.activeSearch with
  | some term => q.searchFields.map (searchCondition term)
  | none => []

theorem wellNamed_searchConditions (h : ∀ f ∈ q.searchFields, ColumnText f) :
    ∀ c ∈ searchConditions q, c.WellNamed := by
  unfold searchConditions
  cases q.activeSearch with
  | none => simp
  | some term => exact List.forall_mem_map.mpr fun f hf => wellNamed_search (h f hf)

theorem full_searchConditions (q : QueryFilter) : ∀ c ∈ searchConditions q, c.Full := by
  unfold searchConditions
  cases q.activeSearch with
  | none => simp
  | some term => exact List.forall_mem_map.mpr fun f _ => rfl

theorem searchFields_ne_nil (h : q.activeSearch = some term) : q.searchFields ≠ [] := by
  unfold QueryFilter.activeSearch at h
  split at h
  · split at h
    · rename_i hne
      exact hne.1
    · cases h
  · cases h

theorem searchGroups_eq (q : QueryFilter) : q.searchGroups = chainGroup 1 (searchConditions q) := by
  unfold QueryFilter.searchGroups searchConditions
  cases h : q.activeSearch with
  | none => rfl
  | some term =>
    obtain ⟨f, fs, hfs⟩ := List.exists_cons_of_ne_nil (searchFields_ne_nil h)
    simp only [hfs, List.map_cons]
    have hjoin := join_eq_chainText (l := .or) (searchCondition term f)
      (fs.map (searchCondition term)) (by simp [searchCondition, FilterCondition.slots])
      (by simp [searchCondition]) 1 0
    rw [← List.map_cons, List.zipIdx_map, List.map_map] at hjoin
    rw [chainGroup, ← hjoin]
    rfl

theorem searchParams_eq (q : QueryFilter) : q.searchParams = chainParams (searchConditions q) := by
  unfold QueryFilter.searchParams searchConditions
  cases q.activeSearch with
  | none => rfl
  | some term =>
    simp only [chainParams, List.flatMap_map]
    exact List.map_eq_flatMap ..

/-- The rest of a chain's text, each condition behind its word. -/
def linksText (k : ℕ) : List FilterCondition → String
  | [] => ""
  | d :: rest => d.logical.text ++ d.sql k ++ linksText (k + d.slots) rest

theorem chainText_eq (k : ℕ) (c : FilterCondition) (rest : List FilterCondition) :
    chainText k c rest = c.sql k ++ linksText (k + c.slots) rest := by
  induction rest generalizing k c with
  | nil => simp [chainText, linksText]
  | cons d rest ih => simp [chainText, linksText, ih, String.append_assoc]

theorem FilterCondition.sql_ne_empty (c : FilterCondition) (k : ℕ) : c.sql k ≠ "" := by
  intro h
  have := congrArg String.toList h
  simp [FilterCondition.sql_eq] at this

/-- The loop over the conditions after the first. -/
theorem foldl_add {u : QueryFilter.UserSql} (hu : u.user ≠ "") (rest : List FilterCondition) :
    rest.foldl QueryFilter.UserSql.add u =
      ⟨u.user ++ linksText u.paramIdx rest, u.params ++ chainParams rest,
        u.paramIdx + chainSlots rest⟩ := by
  induction rest generalizing u with
  | nil => simp [linksText, chainParams, chainSlots]
  | cons d rest ih =>
    have hstep : u.add d = ⟨u.user ++ d.logical.text ++ d.sql u.paramIdx, u.params ++ d.getParams,
        u.paramIdx + d.slots⟩ := by
      simp [QueryFilter.UserSql.add, hu, FilterCondition.sql,
        FilterCondition.buildSqlWithoutPrefix_snd]
    have hne : (u.add d).user ≠ "" := by
      rw [hstep]
      intro h
      have := congrArg String.toList h
      simp_all
    rw [List.foldl_cons, ih hne, hstep]
    simp [linksText, chainParams, chainSlots, String.append_assoc, Nat.add_assoc]

/-- The text of the loop over the caller's conditions. -/
theorem userSql_eq_of_cons {rest : List FilterCondition}
    (h : q.conditions = c :: rest) :
    q.userSql.user = chainText (1 + q.searchParams.length) c rest ∧
      q.userSql.params = q.searchParams ++ chainParams (c :: rest) := by
  have hstep : QueryFilter.UserSql.add ⟨"", q.searchParams, 1 + q.searchParams.length⟩ c =
      ⟨c.sql (1 + q.searchParams.length), q.searchParams ++ c.getParams,
        1 + q.searchParams.length + c.slots⟩ := by
    simp [QueryFilter.UserSql.add, FilterCondition.sql, FilterCondition.buildSqlWithoutPrefix_snd]
  rw [QueryFilter.userSql, h, List.foldl_cons, hstep, foldl_add (c.sql_ne_empty _)]
  simp [chainText_eq, chainParams]

theorem buildWhereClause_snd (q : QueryFilter) :
    q.buildWhereClause.2 = q.searchParams ++ chainParams q.conditions := by
  cases h : q.conditions with
  | nil => simp [QueryFilter.buildWhereClause, QueryFilter.userSql, h, chainParams]
  | cons c rest => exact (userSql_eq_of_cons h).2

theorem groups_eq (q : QueryFilter) :
    q.groups = q.baseGroups ++ chainGroup 1 (searchConditions q) ++
      chainGroup (1 + q.searchParams.length) q.conditions := by
  rw [QueryFilter.groups, searchGroups_eq]
  cases h : q.conditions with
  | nil => simp [QueryFilter.userSql, h, chainGroup]
  | cons c rest =>
    have hne : chainText (1 + q.searchParams.length) c rest ≠ "" := by
      rw [chainText_eq]
      intro h
      have := congrArg String.toList h
      simp [FilterCondition.sql_eq] at this
    simp [(userSql_eq_of_cons h).1, hne, chainGroup]

/-! ## What the groups say -/

theorem conditionsHold_search {r : ρ} (q : QueryFilter) :
    ConditionsHold M r (searchConditions q) ↔ SearchHolds M q r := by
  unfold SearchHolds searchConditions
  cases h : q.activeSearch with
  | none => simp [ConditionsHold]
  | some term =>
    obtain ⟨f, fs, hfs⟩ := List.exists_cons_of_ne_nil (searchFields_ne_nil h)
    have hlink : (fs.map (searchCondition term)).map (fun d => (d.logical.link, d)) =
        (fs.map (searchCondition term)).map fun d => (Link.or, d) := by
      simp [searchCondition, FilterLogical.link]
    simp only [hfs, List.map_cons, ConditionsHold, hlink, ChainHolds, someRun_or]
    simp [FilterCondition.Evaluates, FilterCondition.HoldsAlone, searchCondition,
      FilterCondition.getParams, FilterCondition.sql, FilterCondition.buildSqlWithoutPrefix,
      QueryFilter.searchSql]

theorem group_of_mem_groups (hbase : ∀ b ∈ q.baseConditions, SelfContained b)
    (hsearch : ∀ f ∈ q.searchFields, ColumnText f) (hnamed : ∀ c ∈ q.conditions, c.WellNamed) :
    ∀ g ∈ q.groups, GroupText g := by
  rw [groups_eq, baseGroups_eq hbase]
  intro g hg
  rcases List.mem_append.mp hg with hg | hg
  · rcases List.mem_append.mp hg with hg | hg
    · obtain ⟨b, hb, rfl⟩ := List.mem_map.mp hg
      exact (hbase b hb).group
    · exact group_chainGroup (wellNamed_searchConditions hsearch) 1 g hg
  · exact group_chainGroup hnamed _ g hg

/-- The groups of a filter hold, under its own parameters, of the rows the filter asks for. -/
theorem holds_groups {r : ρ} (hbase : ∀ b ∈ q.baseConditions, SelfContained b)
    (hsearch : ∀ f ∈ q.searchFields, ColumnText f) (hnamed : ∀ c ∈ q.conditions, c.WellNamed)
    (hfull : ∀ c ∈ q.conditions, c.Full) (post : List String) :
    (∀ g ∈ q.groups, holds M (q.buildWhereClause.2 ++ post) (read g) r) ↔ FilterHolds M q r := by
  have hsn : ∀ c ∈ searchConditions q, c.WellNamed := wellNamed_searchConditions hsearch
  have hs := holds_chainGroup (M := M) (r := r) hsn (full_searchConditions q) []
    (chainParams q.conditions ++ post)
  have hu := holds_chainGroup (M := M) (r := r) hnamed hfull q.searchParams post
  rw [conditionsHold_search, ← searchParams_eq] at hs
  rw [groups_eq, List.forall_mem_append, List.forall_mem_append, holds_baseGroups hbase,
    buildWhereClause_snd, hu, and_assoc]
  simp only [List.nil_append, List.length_nil, Nat.add_zero, ← List.append_assoc] at hs
  rw [hs]
  rfl

/-! ## Placeholders and parameters -/

/-- The placeholders of a text. -/
def placeholders (s : String) : List ℕ := holes (toks s)

theorem placeholders_groups {l : FilterLogical} {rest : List String} (h : Lexes s.toList (toks s))
    (hrest : ∀ t ∈ rest, Lexes t.toList (toks t)) :
    placeholders (join l.text ((s :: rest).map parenText)) = (s :: rest).flatMap placeholders := by
  have hparen (t : String) : holes (parenToks t) = holes (toks t) := by
    simp [parenToks, holes]
  have hlink : holes [l.link.tok] = [] := by cases l <;> rfl
  have hlinks : holes ((rest.map fun t => (l.link, parenToks t)).flatMap fun p => p.1.tok :: p.2) =
      rest.flatMap fun t => holes (toks t) := by
    clear hrest
    induction rest with
    | nil => rfl
    | cons t rest ih =>
      rw [List.map_cons, List.flatMap_cons, List.flatMap_cons, holes_append, holes_cons, hlink,
        hparen, ih]
      rfl
  rw [placeholders, toks_of_lexes (lexes_groups l h hrest), groupsToks, chainToks, holes_append,
    hparen, hlinks]
  rfl

theorem placeholders_bodyOf (hne : gs ≠ [])
    (h : ∀ g ∈ gs, Lexes g.toList (toks g)) :
    Lexes (bodyOf gs).toList (toks (bodyOf gs)) ∧
      placeholders (bodyOf gs) = gs.flatMap placeholders := by
  rcases gs with _ | ⟨g, _ | ⟨g', gs⟩⟩
  · exact absurd rfl hne
  · exact ⟨h g List.mem_cons_self, by simp [bodyOf]⟩
  · have hg := h g List.mem_cons_self
    have hgs : ∀ t ∈ g' :: gs, Lexes t.toList (toks t) := fun t ht => h t (List.mem_cons_of_mem _ ht)
    have hlex := lexes_groups .and hg hgs
    exact ⟨toks_of_lexes hlex ▸ hlex, placeholders_groups (l := .and) hg hgs⟩

theorem placeholders_where (h : Lexes s.toList (toks s)) :
    placeholders (" WHERE " ++ s) = placeholders s := by
  have hwhere : Lexes "WHERE".toList [kw "WHERE"] := rfl
  have hall : Lexes (" WHERE " ++ s).toList (kw "WHERE" :: toks s) := by
    simpa using lexes_nil.space (hwhere.space h)
  rw [placeholders, toks_of_lexes hall]
  rfl

/-- The placeholders of a clause are those of its groups, one after the other. -/
theorem placeholders_whereOf (h : ∀ g ∈ gs, Lexes g.toList (toks g)) :
    placeholders (QueryFilter.whereOf gs) = gs.flatMap placeholders := by
  by_cases hne : gs = []
  · subst hne
    simp [QueryFilter.whereOf, placeholders, toks, tokens, lex, close]
  · obtain ⟨hbody, hholes⟩ := placeholders_bodyOf hne h
    rw [whereOf_eq hne, placeholders_where hbody, hholes]

theorem placeholders_chainGroup (h : ∀ c ∈ cs, c.WellNamed) (k : ℕ) :
    (chainGroup k cs).flatMap placeholders = List.range' k (chainSlots cs) := by
  cases cs with
  | nil => simp [chainGroup, chainSlots]
  | cons c rest =>
    obtain ⟨hc, hrest⟩ := List.forall_mem_cons.mp h
    rw [chainGroup, List.flatMap_singleton, placeholders, toks_of_lexes (lexes_chain hc hrest k),
      holes_chainTokens hc hrest, List.range'_eq_map_range]

theorem chainSlots_searchConditions (q : QueryFilter) :
    chainSlots (searchConditions q) = q.searchParams.length := by
  rw [searchParams_eq, length_chainParams (full_searchConditions q)]

section Clause

variable {q : QueryFilter} (hbase : ∀ b ∈ q.baseConditions, Unnumbered b)
  (hsearch : ∀ f ∈ q.searchFields, ColumnText f) (hnamed : ∀ c ∈ q.conditions, c.WellNamed)
include hbase hsearch hnamed

theorem lexes_of_mem_groups : ∀ g ∈ q.groups, Lexes g.toList (toks g) := by
  rw [groups_eq]
  intro g hg
  rcases List.mem_append.mp hg with hg | hg
  · rcases List.mem_append.mp hg with hg | hg
    · obtain ⟨b, hb, rfl⟩ := List.mem_map.mp (List.mem_filter.mp hg).1
      exact (hbase b hb).lexes
    · exact (group_chainGroup (wellNamed_searchConditions hsearch) 1 g hg).lexes
  · exact (group_chainGroup hnamed _ g hg).lexes

theorem placeholders_of_groups :
    q.groups.flatMap placeholders =
      List.range' 1 (q.searchParams.length + chainSlots q.conditions) := by
  have hnone : q.baseGroups.flatMap placeholders = [] := by
    refine List.flatMap_eq_nil_iff.mpr fun g hg => ?_
    obtain ⟨b, hb, rfl⟩ := List.mem_map.mp (List.mem_filter.mp hg).1
    exact (hbase b hb).closed
  rw [groups_eq, List.flatMap_append, List.flatMap_append, hnone, List.nil_append,
    placeholders_chainGroup (wellNamed_searchConditions hsearch), placeholders_chainGroup hnamed,
    chainSlots_searchConditions, List.range'_append_1]

/-- The placeholders of a filter's clause are numbered in a row from 1. -/
theorem placeholders_clause :
    placeholders q.buildWhereClause.1 =
      List.range' 1 (q.searchParams.length + chainSlots q.conditions) := by
  rw [QueryFilter.buildWhereClause, placeholders_whereOf (lexes_of_mem_groups hbase hsearch hnamed),
    placeholders_of_groups hbase hsearch hnamed]

end Clause

/-! ## Faithful clauses -/

/-- The clause of a filter says what the filter says, alone and behind any cursor. -/
structure Faithful (M : Meaning ρ) (q : QueryFilter) : Prop where
  /-- Every placeholder has its parameter. -/
  bound : ∀ n ∈ placeholders q.buildWhereClause.1, 1 ≤ n ∧ n ≤ q.buildWhereClause.2.length
  selects_iff : ∀ r, selects M q.buildWhereClause.2 q.buildWhereClause.1 r ↔ FilterHolds M q r
  walk_iff : ∀ p casts backwards, KeysetNamed p casts → ∀ r,
    selects M (walkClause q p casts backwards).2 (walkClause q p casts backwards).1 r ↔
      FilterHolds M q r ∧ KeysetHolds M p casts backwards r
  /-- No row that violates a base condition matches. -/
  fenced : ∀ r, (selects M q.buildWhereClause.2 q.buildWhereClause.1 r ∨
      ∃ p casts backwards, KeysetNamed p casts ∧
        selects M (walkClause q p casts backwards).2 (walkClause q p casts backwards).1 r) →
    BaseHolds M q r

theorem FilterCondition.Parsed.full (h : c.Parsed) (hs : c.short = false) : c.Full := by
  have hparams := h.params
  rw [hs] at hparams
  exact hparams

/-- A short BETWEEN leaves the clause with more placeholders than parameters. -/
theorem length_chainParams_lt (h : ∀ c ∈ cs, c.Parsed) (hs : ∃ c ∈ cs, c.short) :
    (chainParams cs).length < chainSlots cs := by
  have hle (cs : List FilterCondition) (h : ∀ c ∈ cs, c.Parsed) :
      (chainParams cs).length ≤ chainSlots cs := by
    induction cs with
    | nil => exact le_rfl
    | cons c cs ih =>
      obtain ⟨hc, hcs⟩ := List.forall_mem_cons.mp h
      have hone := hc.params
      have hrest := ih hcs
      simp only [chainParams, chainSlots, List.flatMap_cons, List.length_append, List.map_cons,
        List.sum_cons] at hrest ⊢
      omega
  induction cs with
  | nil => obtain ⟨c, hc, -⟩ := hs; cases hc
  | cons c cs ih =>
    obtain ⟨hc, hcs⟩ := List.forall_mem_cons.mp h
    have hone := hc.params
    have hrest := hle cs hcs
    by_cases hshort : c.short
    · simp only [hshort, if_true] at hone
      simp only [chainParams, chainSlots, List.flatMap_cons, List.length_append, List.map_cons,
        List.sum_cons] at hrest ⊢
      omega
    · have htail : ∃ d ∈ cs, d.short := by
        obtain ⟨d, hd, hds⟩ := hs
        rcases List.mem_cons.mp hd with rfl | hd
        · exact absurd hds hshort
        · exact ⟨d, hd, hds⟩
      have hlt := ih hcs htail
      simp only [chainParams, chainSlots, List.flatMap_cons, List.length_append, List.map_cons,
        List.sum_cons] at hlt ⊢
      omega

/-- Conditions with as many parameters as placeholders have them each. -/
theorem full_of_count (h : ∀ c ∈ cs, c.Parsed) (hcount : chainSlots cs ≤ (chainParams cs).length) :
    ∀ c ∈ cs, c.Full := by
  intro c hc
  refine (h c hc).full ?_
  rw [← Bool.not_eq_true]
  intro hs
  have hlt := length_chainParams_lt h ⟨c, hc, hs⟩
  omega

/-- The conditions of a request have all their values exactly when every range it asks for came with
two. -/
theorem parseFilters_full_iff {U : CharTables} {params : List (String × String)}
    {columnTypes : ColumnTypes} {allowedFields : Option (List String)}
    (hparse : parseFilters U params columnTypes allowedFields = .ok q)
    (htypes : ∀ t ∈ columnTypes, TypeName t.2) :
    (∀ c ∈ q.conditions, c.Full) ↔ ∀ x ∈ params, shortRange U allowedFields x = false := by
  obtain ⟨hparsed, -, -, -, hshort⟩ := parseFilters_ok htypes hparse
  constructor
  · intro hfull x hx
    rw [← Bool.not_eq_true]
    intro hrange
    obtain ⟨c, hc, hs⟩ := hshort.mpr ⟨x, hx, hrange⟩
    have hlt := length_chainParams_lt hparsed ⟨c, hc, hs⟩
    rw [length_chainParams hfull] at hlt
    exact absurd hlt (lt_irrefl _)
  · intro h c hc
    refine (hparsed c hc).full ?_
    rw [← Bool.not_eq_true]
    intro hs
    obtain ⟨x, hx, hrange⟩ := hshort.mp ⟨c, hc, hs⟩
    rw [h x hx] at hrange
    cases hrange

section Faithful

variable {M : Meaning ρ} {q : QueryFilter} (hbase : ∀ b ∈ q.baseConditions, SelfContained b)
  (hsearch : ∀ f ∈ q.searchFields, ColumnText f) {r : ρ} {ps : List String}
include hbase hsearch

omit hsearch in
/-- Whatever the parameters, a row the clause selects satisfies the base conditions. -/
theorem base_of_groups (h : ∀ g ∈ q.groups, holds M ps (read g) r) : BaseHolds M q r := by
  rw [groups_eq, List.append_assoc, List.forall_mem_append] at h
  exact (holds_baseGroups hbase ps r).mp h.1

theorem selects_clause (hnamed : ∀ c ∈ q.conditions, c.WellNamed) :
    selects M ps q.buildWhereClause.1 r ↔ ∀ g ∈ q.groups, holds M ps (read g) r :=
  selects_whereOf (group_of_mem_groups hbase hsearch hnamed)

theorem selects_walk (hnamed : ∀ c ∈ q.conditions, c.WellNamed) {p : CursorPayload}
    {casts : List (Option String)} (hp : KeysetNamed p casts) (backwards : Bool) :
    selects M (walkClause q p casts backwards).2 (walkClause q p casts backwards).1 r ↔
      (∀ g ∈ q.groups, holds M (walkClause q p casts backwards).2 (read g) r) ∧
        KeysetHolds M p casts backwards r := by
  have hkey := holds_keyset (M := M) (r := r) hp backwards q.buildWhereClause.2
  rw [Nat.add_comm] at hkey
  rw [KeysetHolds, ← hkey]
  simp only [walkClause, QueryFilter.buildWhereClause]
  exact selects_andKeysetPredicate (group_of_mem_groups hbase hsearch hnamed)
    (group_keyset hp backwards _)

/-- A clause that selects a row has all its values. -/
theorem full_of_selects (hparsed : ∀ c ∈ q.conditions, c.Parsed)
    (h : selects M q.buildWhereClause.2 q.buildWhereClause.1 r) : ∀ c ∈ q.conditions, c.Full := by
  have hnamed : ∀ c ∈ q.conditions, c.WellNamed := fun c hc => (hparsed c hc).wellNamed
  have hgroups := (selects_clause hbase hsearch hnamed).mp h
  rw [groups_eq, List.forall_mem_append] at hgroups
  refine full_of_count hparsed ?_
  cases hcs : q.conditions with
  | nil => exact le_rfl
  | cons d rest =>
    rw [hcs] at hgroups hnamed
    obtain ⟨hd, hrest⟩ := List.forall_mem_cons.mp hnamed
    have hchain := hgroups.2 _ List.mem_cons_self
    rw [read_chainText hd hrest] at hchain
    by_cases hnone : chainSlots (d :: rest) = 0
    · omega
    -- The last placeholder of the chain has a parameter.
    have hbound := bound_of_valid_chain (n := q.searchParams.length + chainSlots (d :: rest)) hd hrest
      (valid_of_holds hchain) (by omega) (by omega)
    rw [buildWhereClause_snd, List.length_append, hcs] at hbound
    omega

/-- With all their values, the conditions of a filter make a faithful clause. -/
theorem faithful_of_full (hnamed : ∀ c ∈ q.conditions, c.WellNamed)
    (hfull : ∀ c ∈ q.conditions, c.Full) : Faithful M q where
  bound n hn := by
    rw [placeholders_clause (fun b hb => (hbase b hb).unnumbered) hsearch hnamed,
      List.mem_range'_1] at hn
    rw [buildWhereClause_snd, List.length_append, length_chainParams hfull]
    omega
  selects_iff r := by
    rw [selects_clause hbase hsearch hnamed]
    simpa using holds_groups (M := M) (r := r) hbase hsearch hnamed hfull []
  walk_iff p casts backwards hp r := by
    rw [selects_walk hbase hsearch hnamed hp]
    refine and_congr_left fun _ => ?_
    exact holds_groups hbase hsearch hnamed hfull _
  fenced r h := by
    rcases h with h | ⟨p, casts, backwards, hp, h⟩
    · exact base_of_groups hbase ((selects_clause hbase hsearch hnamed).mp h)
    · exact base_of_groups hbase ((selects_walk hbase hsearch hnamed hp _).mp h).1

/-- A faithful clause has all its values: its last placeholder has its parameter. -/
theorem full_of_faithful (hparsed : ∀ c ∈ q.conditions, c.Parsed) (h : Faithful M q) :
    ∀ c ∈ q.conditions, c.Full := by
  refine full_of_count hparsed ?_
  by_cases hnone : chainSlots q.conditions = 0
  · omega
  · have hmem : q.searchParams.length + chainSlots q.conditions ∈
        placeholders q.buildWhereClause.1 := by
      rw [placeholders_clause (fun b hb => (hbase b hb).unnumbered) hsearch fun c hc =>
        (hparsed c hc).wellNamed, List.mem_range'_1]
      omega
    have hbound := (h.bound _ hmem).2
    rw [buildWhereClause_snd, List.length_append] at hbound
    omega

end Faithful

/-- The clause of a request is faithful exactly when every range it asks for came with two values.
The base conditions, the search term and the searched columns are the repository's. -/
theorem faithful_iff (M : Meaning ρ) {U : CharTables} {params : List (String × String)}
    {columnTypes : ColumnTypes} {allowedFields : Option (List String)} {q : QueryFilter}
    (hparse : parseFilters U params columnTypes allowedFields = .ok q)
    (htypes : ∀ t ∈ columnTypes, TypeName t.2) {base : List String}
    (hbase : ∀ b ∈ base, SelfContained b) (search : Option String) {fields : List String}
    (hfields : ∀ f ∈ fields, ColumnText f) :
    Faithful M { q with baseConditions := base, search := search, searchFields := fields } ↔
      ∀ x ∈ params, shortRange U allowedFields x = false := by
  obtain ⟨hparsed, -⟩ := parseFilters_ok htypes hparse
  let q' : QueryFilter := { q with baseConditions := base, search := search, searchFields := fields }
  rw [← parseFilters_full_iff hparse htypes]
  refine ⟨fun h => full_of_faithful (q := q') hbase hfields hparsed h, fun hfull => ?_⟩
  exact faithful_of_full (q := q') hbase hfields (fun c hc => (hparsed c hc).wellNamed) hfull

/-! ## Two requests -/

/-- Rows of numbers, some of them NULL. -/
abbrev NumberRow := String → Option ℕ

/-- A test of a value that may be NULL. -/
def testValue (value : Option ℕ) (test : ℕ → Bool) : Truth :=
  match value with
  | some n => if test n then .yes else .no
  | none => .unknown

/-- The atoms of a table of numbers, as Postgres evaluates them: a value that is no number fails the
statement. -/
def numberMeaning : Meaning NumberRow
  | .word c :: .word ['B', 'E', 'T', 'W', 'E', 'E', 'N'] :: .hole lo :: .word ['A', 'N', 'D'] ::
      .hole hi :: _ =>
    (parseU32 lo).bind fun a => (parseU32 hi).map fun b r =>
      testValue (r (String.ofList c)) fun n => a ≤ n && n ≤ b
  | .word c :: .sym ['='] :: .hole v :: _ =>
    (parseU32 v).map fun a r => testValue (r (String.ofList c)) (· == a)
  | .word c :: .sym ['>'] :: .hole v :: _ =>
    (parseU32 v).map fun a r => testValue (r (String.ofList c)) (decide <| a < ·)
  | [.word c, .word ['I', 'S'], .word ['N', 'U', 'L', 'L']] =>
    some fun r => if r (String.ofList c) = none then .yes else .no
  | _ => none

/-- A request with both bounds, and an OR behind them. -/
theorem faithful_two_bounds :
    Faithful numberMeaning
      { conditions := [⟨"total", .between, .multiple ["1", "5"], .and, none⟩,
          ⟨"rank", .equal, .single "3", .or, some "bigint"⟩]
        search := some "x"
        searchFields := ["name"]
        baseConditions := ["deleted_at IS NULL"] } := by
  have hparse : parseFilters asciiTables [("total[between]", "1,5"), ("rank[or]", "3")]
      [("rank", "bigint")] none =
        .ok { conditions := [⟨"total", .between, .multiple ["1", "5"], .and, none⟩,
          ⟨"rank", .equal, .single "3", .or, some "bigint"⟩] } := rfl
  have htypes : ∀ t ∈ [("rank", "bigint")], TypeName t.2 := by
    simp only [List.mem_singleton, forall_eq]
    exact ⟨rfl, by decide, rfl, ⟨_, _, rfl, by decide⟩⟩
  have hbase : ∀ b ∈ ["deleted_at IS NULL"], SelfContained b := by
    simp only [List.mem_singleton, forall_eq]
    exact ⟨rfl, rfl, rfl⟩
  have hfields : ∀ f ∈ ["name"], ColumnText f := by
    simp only [List.mem_singleton, forall_eq]
    exact columnText_of_all (by decide) (by decide)
  exact (faithful_iff numberMeaning hparse htypes hbase (some "x") hfields).mpr (by decide)

/-- A request with a single bound: the two placeholders of its BETWEEN have no parameter, and behind
a cursor they read the values of the cursor. -/
theorem single_bound_unfaithful :
    ∃ q, parseFilters asciiTables [("price[between]", "5")] [] none = .ok q ∧
      q.buildWhereClause = (" WHERE price BETWEEN $1 AND $2", []) ∧
      ¬ Faithful numberMeaning q ∧
      ∃ p casts r, KeysetNamed p casts ∧
        selects numberMeaning (walkClause q p casts false).2 (walkClause q p casts false).1 r ∧
        ¬ ClientHolds numberMeaning q r := by
  let q : QueryFilter := { conditions := [⟨"price", .between, .multiple ["5"], .and, none⟩] }
  have hclause : q.buildWhereClause = (" WHERE price BETWEEN $1 AND $2", []) := by decide
  refine ⟨q, rfl, hclause, fun h => ?_, ⟨1, ["total"], [0], ["3"], "7"⟩, [none],
    fun c => if c = "price" then some 3 else some 4, ⟨?_, by simp⟩, by decide +kernel, fun h => ?_⟩
  · have hbound := (h.bound 1 (by decide)).2
    rw [hclause] at hbound
    cases hbound
  · simp only [List.mem_singleton, forall_eq]
    exact columnText_of_all (by decide) (by decide)
  · obtain ⟨⟨hvalid, -⟩, -⟩ := h
    revert hvalid
    unfold FilterCondition.Evaluates
    decide

end Backbone.Orm
