import Backbone.Orm.EnumValues
import Backbone.Orm.ListWalk

/-!
# Filtered reads of a repository

A repository reads its table under a condition of its own and the filters of a request. The types of
the compared columns are the entity's hints; where these leave a comparison without a cast, or name a
type without its schema, the filters are parsed again with the catalog's casts beside the hints.

Reference: `backbone-orm/src/repository.rs` (`parse_typed_filters`, `merge_filter_casts`,
`list_with_filters_and_base`) and `backbone-orm/src/filter/{condition,query}.rs`.
-/

namespace Backbone.Orm

open Text Sql

/-! ## Casts from the catalog -/

/-- The operators that compare a value with a column of any type. -/
def comparingOperators : List FilterOperator :=
  [.equal, .notEqual, .greaterThan, .greaterThanOrEqual, .lessThan, .lessThanOrEqual, .isIn, .notIn,
    .between, .notBetween]

/-- True when a condition binds a value it compares, yet carries no cast for it. -/
def FilterCondition.needsValueCast (c : FilterCondition) : Bool :=
  c.columnType.isNone && decide (c.operator ∈ comparingOperators)

/-- Whether the table's catalog types must be read before a filter runs. -/
def QueryFilter.needsCatalogTypes (q : QueryFilter) : Bool :=
  q.conditions.any fun c => c.needsValueCast || c.needsTypeQualification

/-- `rsplit_once('.')`, as what follows the last dot. -/
def afterLastDot (s : String) : Option String :=
  if contains s '.' then (split s '.').getLast? else none

/-- Does the catalog name the hinted type with its schema? -/
def qualifiedSameType (catalog : ColumnTypes) (hint : String × String) : Bool :=
  ((catalog.lookup hint.1).bind afterLastDot).any fun name => trimMatches name '"' == hint.2

/-- `merge_filter_casts`: the hints, with the catalog's casts for the columns they do not name. -/
def mergeFilterCasts (hints catalog : ColumnTypes) : ColumnTypes :=
  hints.foldl (fun catalog hint =>
    if qualifiedSameType catalog hint then catalog
    else catalog.filter (·.1 ≠ hint.1) ++ [hint]) catalog

/-- `parse_typed_filters`. -/
def parseTypedFilters (U : CharTables) (filters : List (String × String))
    (hints catalog : ColumnTypes) (allowedFields : Option (List String)) :
    Except QueryParamError QueryFilter := do
  let q ← parseFilters U filters hints allowedFields
  if q.needsCatalogTypes then
    parseFilters U filters (mergeFilterCasts hints catalog) allowedFields
  else return q

/-! ## A repository -/

/-- A repository over a table: the entity's `column_types()` and `search_fields()`, the condition its
reads carry, and the casts the catalog has for the columns. -/
structure FilteredRepository (ρ : Type) (V : String → Type) where
  table : Table ρ V
  columnTypes : ColumnTypes
  searchFields : List String
  baseCondition : Option String
  catalogCasts : ColumnTypes

/-- The filter as the repository runs it: with its base condition, and searching the entity's fields if
there are any. -/
def QueryFilter.under (q : QueryFilter) (baseCondition : Option String) (searchFields : List String) :
    QueryFilter :=
  { q with
    baseConditions := q.baseConditions ++ baseCondition.toList
    searchFields := if searchFields.isEmpty then q.searchFields else searchFields }

namespace FilteredRepository

variable {ρ : Type} {V : String → Type} [∀ f, LinearOrder (V f)] (R : FilteredRepository ρ V)
  (U : CharTables) (J : Json)

/-- The filter a request's filters come to. -/
def queryFilter (filters : List (String × String)) : Except QueryParamError QueryFilter :=
  (parseTypedFilters U filters R.columnTypes R.catalogCasts none).map fun q =>
    q.under R.baseCondition R.searchFields

/-- `list_with_filters_and_base`, before a failed statement is matched to a parameter. -/
def listWithFilters (pagination : PaginationParams) (filters : List (String × String)) :
    Except ListError (PaginatedResult ρ) := do
  let q ← (R.queryFilter U filters).mapError .parameter
  R.table.executeList J pagination q

/-- The number of rows the conditions of the filters select. -/
def matchingCount (filters : List (String × String)) : ℕ :=
  match R.queryFilter U filters with
  | .ok q => (R.table.matching q).length
  | .error _ => 0

end FilteredRepository

/-! ## Totals -/

/-- Page mode: no cursor is walked. -/
def QueryFilter.PageMode (q : QueryFilter) : Prop := q.cursorAfter = none ∧ q.cursorBefore = none

section Totals

variable {ρ : Type} {V : String → Type} [∀ f, LinearOrder (V f)] {T : Table ρ V} {J : Json}
  {pagination : PaginationParams} {q : QueryFilter} {page : PaginatedResult ρ}

theorem QueryFilter.pageMode_iff : q.PageMode ↔ q.cursorWalk = false := by
  unfold QueryFilter.PageMode QueryFilter.cursorWalk QueryFilter.backwards
  cases q.cursorAfter <;> cases q.cursorBefore <;> simp

omit [∀ f, LinearOrder (V f)] in
/-- The clause of a list in page mode is that of the filter alone. -/
theorem listClause_pageMode (hpage : q.PageMode) :
    Table.listClause J q (totalOrder q.sorts) (T.castsOf q) q.backwards = .ok q.buildWhereClause := by
  obtain ⟨hafter, hbefore⟩ := hpage
  unfold Table.listClause
  rw [hafter, hbefore, ite_self]

omit [∀ f, LinearOrder (V f)] in
/-- The total of a statement that can be evaluated. -/
theorem listTotal_eq {clause : String × List String} (heval : evaluates T.meaning clause.2 clause.1)
    (estimateTotal cursorWalk : Bool) :
    T.listTotal estimateTotal cursorWalk clause = .ok
      (if estimateTotal then
        if T.estimate clause.1 clause.2 ≤ Table.exactCountBelow then
          ((T.selected clause).length, .exact)
        else (T.estimate clause.1 clause.2, .estimate)
      else if cursorWalk then (0, .none)
      else ((T.selected clause).length, .exact)) := by
  unfold Table.listTotal Table.estimateFilteredRows Table.countFilteredRows
  simp only [run_ok heval, bind, Except.bind, pure, Except.pure]
  split
  · split <;> rfl
  · split <;> rfl

section

variable (h : T.executeList J pagination q = .ok page)
include h

/-- What an answered list says of its total. -/
theorem total_of_ok :
    ∃ clause, Table.listClause J q (totalOrder q.sorts) (T.castsOf q) q.backwards = .ok clause ∧
      evaluates T.meaning clause.2 clause.1 ∧
      T.listTotal q.estimateTotal q.cursorWalk clause =
        .ok (page.pagination.total, page.pagination.countMode) := by
  obtain ⟨clause, total, hclause, htotal, heval, rfl⟩ := executeList_eq_ok.mp h
  exact ⟨clause, hclause, heval, htotal⟩

/-- An exact total in page mode is the number of the matching rows. -/
theorem total_exact (hpage : q.PageMode)
    (hexact : page.pagination.countMode = .exact) :
    page.pagination.total = (T.matching q).length := by
  obtain ⟨clause, hclause, heval, htotal⟩ := total_of_ok h
  rw [listClause_pageMode hpage] at hclause
  obtain rfl := Except.ok.inj hclause
  rw [listTotal_eq heval, Except.ok.injEq, QueryFilter.pageMode_iff.mp hpage] at htotal
  split at htotal
  · split at htotal
    · exact (congrArg Prod.fst htotal).symm
    · -- The planner's estimate is not marked as exact.
      have hmode := congrArg Prod.snd htotal
      rw [hexact] at hmode
      cases hmode
  · exact (congrArg Prod.fst htotal).symm

/-- The total in page mode is exact unless an estimate is asked for. -/
theorem exact_pageMode (hpage : q.PageMode)
    (hestimate : q.estimateTotal = false) : page.pagination.countMode = .exact := by
  obtain ⟨clause, -, heval, htotal⟩ := total_of_ok h
  rw [listTotal_eq heval, Except.ok.injEq, QueryFilter.pageMode_iff.mp hpage, hestimate] at htotal
  exact (congrArg Prod.snd htotal).symm

/-- A walk that asks for no estimate has no total. -/
theorem total_walk (hwalk : ¬ q.PageMode)
    (hestimate : q.estimateTotal = false) : page.pagination.total = 0 := by
  obtain ⟨clause, -, heval, htotal⟩ := total_of_ok h
  rw [QueryFilter.pageMode_iff, Bool.not_eq_false] at hwalk
  rw [listTotal_eq heval, Except.ok.injEq, hwalk, hestimate] at htotal
  exact (congrArg Prod.fst htotal).symm

/-- A planner may put any large number into an estimated total. -/
theorem exists_estimated
    (hestimate : q.estimateTotal = true) {n : ℕ} (hn : Table.exactCountBelow < n) :
    ∃ page', Table.executeList { T with estimate := fun _ _ => n } J pagination q = .ok page' ∧
      page'.pagination.total = n := by
  obtain ⟨clause, total, hclause, -, heval, -⟩ := executeList_eq_ok.mp h
  refine ⟨_, executeList_eq_ok.mpr ⟨clause, (n, .estimate), hclause, ?_, heval, rfl⟩, rfl⟩
  have htotal := listTotal_eq (T := { T with estimate := fun _ _ => n }) heval true q.cursorWalk
  rw [if_pos rfl, if_neg (Nat.not_le.mpr hn)] at htotal
  rw [hestimate]
  exact htotal

end

end Totals

end Backbone.Orm
