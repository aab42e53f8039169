import Backbone.Core.Aggregates

/-!
# One number from three routes

A list in page mode, the count and the total of an aggregate all tell how many rows the same filters
select. The count is read out of a list of one row, whose total is none on a walk with a cursor and the
planner's where an estimate is asked for; both parameters reach it with the others. The aggregate leaves
out the keys of its own grammar, also where the table has columns of these names, and cuts its rows at a
limit that wraps.

`TotalsAgree` is what the three are meant to answer, `totals_agree_iff` when they do whatever the planner
estimates. The aggregate's request may carry keys of its own beside the filters of the map.

Reference: `backbone-core/src/http.rs` (`count_active_filtered`, the handlers) and
`backbone-orm/src/repository.rs` (`execute_list`, `aggregate_unattributed`).
-/

namespace Backbone.Core

open Text
open Orm (FilteredRepository ListError PaginatedResult PaginationParams QueryFilter)

namespace AggregateRepository

section

variable {ρ : Type} {V : String → Type} [∀ f, LinearOrder (V f)] (R : AggregateRepository ρ V)
  (U : CharTables) (J : Orm.Json) (toUppercase : Char → List Char) (E : EntityMeta) (caller : Caller)

/-- The answers to a map and to an aggregate over its filters are the number of rows that match the
map's conditions. -/
structure TotalsAgree (params asked : ListQueryParams) : Prop where
  listed : ∀ page q, R.listRoute U J E caller params = .ok page →
    R.queryFilter U (repositoryFilters params) = .ok q → q.PageMode →
      page.pagination.countMode = .exact →
        page.pagination.total = R.matchingCount U (repositoryFilters params)
  counted : ∀ n, R.countRoute U J E caller params = .ok n →
    n = R.matchingCount U (repositoryFilters params)
  aggregated : ∀ result, R.aggregateRoute U toUppercase E caller asked = .ok result →
    result.total.count = R.matchingCount U (repositoryFilters params)

/-- The map asks for no estimate, and carries no cursor where rows match. -/
def CountsExactly (params : ListQueryParams) : Prop :=
  ∀ q, R.queryFilter U (repositoryFilters params) = .ok q →
    q.estimateTotal = false ∧ (q.PageMode ∨ R.matchingCount U (repositoryFilters params) = 0)

/-- The keys an aggregate takes for its own leave no more rows when they are left out. -/
def NarrowsNothing (params : ListQueryParams) : Prop :=
  R.matchingCount U (aggregateFilters params) = R.matchingCount U (repositoryFilters params)

end

end AggregateRepository

/-- The statement of an aggregate is not cut before its total. -/
def AggregateSpec.KeepsTotal (spec : AggregateSpec) : Prop :=
  spec.groupBy = none ∨ spec.rowLimit ≠ 0

/-! ## The total of an aggregate -/

section Aggregate

variable {ρ : Type} {V : String → Type} [∀ f, LinearOrder (V f)] {R : AggregateRepository ρ V}
  {U : CharTables} {total : AggregateRow} {reductions : List Reduction}
  {row : AggregateRow} {rows : List ρ}

theorem rank_le_of_total (htotal : total.isTotal = true)
    (hrow : row.isTotal = false) : total.rank ≤ row.rank := by
  refine le_of_lt (Prod.Lex.toLex_lt_toLex.mpr (.inl ?_))
  rw [htotal, hrow]
  exact OrderDual.toDual_lt_toDual.mpr Nat.zero_lt_one

/-- The total comes first. -/
theorem insertionSort_total {groups : List AggregateRow} (htotal : total.isTotal = true)
    (hgroups : ∀ row ∈ groups, row.isTotal = false) :
    ∃ rest : List AggregateRow,
      (total :: groups).insertionSort (fun a b => a.rank ≤ b.rank) = total :: rest ∧
        ∀ row ∈ rest, row.isTotal = false := by
  refine ⟨groups.insertionSort fun a b => a.rank ≤ b.rank, ?_, fun row hrow => ?_⟩
  · rw [List.insertionSort_cons]
    cases hsorted : groups.insertionSort fun a b => a.rank ≤ b.rank with
    | nil => rfl
    | cons row rest =>
      have hmem : row ∈ groups := by
        rw [← List.mem_insertionSort fun a b : AggregateRow => a.rank ≤ b.rank, hsorted]
        exact List.mem_cons_self
      exact if_pos (rank_le_of_total htotal (hgroups row hmem))
  · exact hgroups row ((List.mem_insertionSort _).mp hrow)

omit [∀ f, LinearOrder (V f)] in
theorem rowOf_eq_some {isTotal : Bool} {key : Option String}
    (h : R.rowOf reductions isTotal key rows = some row) :
    row.isTotal = isTotal ∧ row.count = rows.length := by
  obtain ⟨values, -, rfl⟩ := Option.map_eq_some_iff.mp h
  exact ⟨rfl, rfl⟩

/-- The grouping sets are the groups and the total of all rows. -/
theorem groupingSets_eq_some {column : String}
    {sets : List AggregateRow} (h : R.groupingSets column reductions rows = some sets) :
    ∃ total groups, sets = total :: groups ∧ total.isTotal = true ∧ total.count = rows.length ∧
      ∀ row ∈ groups, row.isTotal = false := by
  unfold AggregateRepository.groupingSets at h
  obtain ⟨total, htotal, h⟩ := Option.bind_eq_some_iff.mp h
  obtain ⟨groups, hgroups, h⟩ := Option.bind_eq_some_iff.mp h
  obtain rfl := Option.some.inj h
  refine ⟨total, groups, rfl, (rowOf_eq_some htotal).1, (rowOf_eq_some htotal).2, fun row hrow => ?_⟩
  obtain ⟨v, -, hv⟩ := Table.exists_of_mem_right (mapM_eq_some.mp hgroups) hrow
  exact (rowOf_eq_some hv).1

omit [∀ f, LinearOrder (V f)] in
/-- A statement that answers does so about the rows its clause selects. -/
theorem answered_eq_ok {clause : String × List String} {rows : List ρ → Option (List AggregateRow)}
    {answer : List AggregateRow} (h : R.answered clause rows = .ok answer) :
    rows (R.table.selected clause) = some answer := by
  unfold AggregateRepository.answered at h
  obtain ⟨found, hrun, h⟩ := bind_eq_ok.mp h
  obtain ⟨-, rfl⟩ := Orm.run_eq_ok.mp hrun
  cases hrows : rows (R.table.selected clause) with
  | none =>
    rw [hrows] at h
    cases h
  | some found =>
    rw [hrows] at h
    rw [pure_eq_ok.mp h]

/-- The total read of rows that begin with it. -/
theorem total_readRows {limit : ℕ} {keys : List String} {rest : List AggregateRow}
    (htotal : total.isTotal = true) (hrest : ∀ row ∈ rest, row.isTotal = false) :
    (readRows limit keys (total :: rest)).total = total.toAggregateGroup := by
  have hnone : rest.filter (·.isTotal) = [] :=
    List.filter_eq_nil_iff.mpr fun row hrow => by simp [hrest row hrow]
  simp only [readRows, List.filter_cons, htotal, if_true, hnone]
  rfl

/-- An aggregate counts the rows its filters match, unless its statement is cut before the total. -/
theorem total_aggregate {spec : AggregateSpec} {labelTable : Option String}
    {filters : List (String × String)} {result : AggregateResult}
    (h : R.aggregateUnattributed U spec labelTable filters = .ok result) :
    (spec.KeepsTotal → result.total.count = R.matchingCount U filters) ∧
      (¬ spec.KeepsTotal → result.total.count = 0) := by
  unfold AggregateRepository.aggregateUnattributed at h
  obtain ⟨q, hq, h⟩ := bind_eq_ok.mp h
  obtain ⟨reductions, -, h⟩ := bind_eq_ok.mp h
  obtain ⟨labelled, -, h⟩ := bind_eq_ok.mp h
  obtain ⟨rows, hrows, h⟩ := bind_eq_ok.mp h
  obtain rfl := pure_eq_ok.mp h
  have hcount : R.matchingCount U filters = (R.table.matching q).length := by
    unfold Orm.FilteredRepository.matchingCount
    rw [mapError_eq_ok.mp hq]
  unfold AggregateSpec.KeepsTotal
  unfold AggregateRepository.statementRows at hrows
  cases hgroup : spec.groupBy with
  | none =>
    rw [hgroup] at hrows
    have hanswer := answered_eq_ok (mapError_eq_ok.mp hrows)
    obtain ⟨total, htotal, rfl⟩ := Option.map_eq_some_iff.mp hanswer
    obtain ⟨hisTotal, hlength⟩ := rowOf_eq_some htotal
    refine ⟨fun _ => ?_, fun hnot => absurd (.inl rfl) hnot⟩
    rw [total_readRows hisTotal fun _ hrow => absurd hrow List.not_mem_nil, hcount]
    exact hlength
  | some field =>
    rw [hgroup] at hrows
    simp only at hrows
    split at hrows
    · cases hrows
    · have hgrouped := mapError_eq_ok.mp hrows
      unfold AggregateRepository.groupedRows at hgrouped
      split at hgrouped
      · cases hgrouped
      · obtain ⟨sets, hsets, rfl⟩ := Option.map_eq_some_iff.mp (answered_eq_ok hgrouped)
        obtain ⟨total, groups, rfl, htotal, hlength, hgroups⟩ := groupingSets_eq_some hsets
        obtain ⟨rest, hsorted, hrest⟩ := insertionSort_total htotal hgroups
        rw [hsorted]
        refine ⟨fun hkeeps => ?_, fun hcut => ?_⟩
        · obtain ⟨n, hn⟩ := Nat.exists_eq_succ_of_ne_zero (hkeeps.resolve_left fun h => by cases h)
          rw [hn, List.take_succ_cons, total_readRows htotal fun row hrow =>
            hrest row (List.mem_of_mem_take hrow), hcount]
          exact hlength
        · have hzero : spec.rowLimit = 0 := by
            by_contra hne
            exact hcut (.inr hne)
          rw [hzero, List.take_zero]
          rfl

end Aggregate

/-! ## The routes -/

section Routes

variable {ρ : Type} {V : String → Type} [∀ f, LinearOrder (V f)] {R : AggregateRepository ρ V}
  {U : CharTables} {J : Orm.Json} {toUppercase : Char → List Char} {E : EntityMeta} {caller : Caller}
  {params asked : ListQueryParams} {filters : List (String × String)} {page : PaginatedResult ρ}
  {n : ℕ} {q : QueryFilter}

theorem gated_eq_ok {paged : Bool} {α : Type} {answer : Except AggregateError α} {a : α} :
    AggregateRepository.gated U E caller params paged answer = .ok a ↔
      queryRefusals U E params paged caller = [] ∧ answer = .ok a := by
  unfold AggregateRepository.gated
  cases hrefused : queryRefusals U E params paged caller with
  | nil => exact ⟨fun h => ⟨rfl, mapError_eq_ok.mp h⟩, fun h => mapError_eq_ok.mpr h.2⟩
  | cons => exact iff_of_false (fun h => by cases h) fun h => by cases h.1

/-- What an answered list did. -/
theorem listFiltered_eq_ok {page limit : ℕ}
    {answer : PaginatedResult ρ} :
    R.listFiltered U J page limit filters = .ok answer ↔
      ∃ q, R.queryFilter U filters = .ok q ∧
        R.table.executeList J (.new page limit) q = .ok answer := by
  unfold AggregateRepository.listFiltered Orm.FilteredRepository.listWithFilters
  rw [mapError_eq_ok, bind_eq_ok]
  simp only [mapError_eq_ok]

/-- What an answered list page was read with: the filters of the map. -/
theorem listRoute_eq_ok :
    R.listRoute U J E caller params = .ok page ↔
      queryRefusals U E (normalized params) true caller = [] ∧
        ∃ q, R.queryFilter U (repositoryFilters params) = .ok q ∧
          R.table.executeList J (.new (normalized params).page (normalized params).limit) q =
            .ok page := by
  have hfilters : repositoryFilters (normalized params) = repositoryFilters params := rfl
  unfold AggregateRepository.listRoute
  simp only [gated_eq_ok, listFiltered_eq_ok, hfilters]

/-- What an answered count did. -/
theorem countRoute_eq_ok :
    R.countRoute U J E caller params = .ok n ↔
      queryRefusals U E params false caller = [] ∧
        ∃ q page, R.queryFilter U (repositoryFilters params) = .ok q ∧
          R.table.executeList J (.new 1 1) q = .ok page ∧ page.pagination.total = n := by
  unfold AggregateRepository.countRoute AggregateRepository.countActiveFiltered
  rw [gated_eq_ok]
  refine and_congr_right fun _ => ?_
  cases hlist : R.listFiltered U J 1 1 (repositoryFilters params) with
  | error err =>
    refine iff_of_false (fun h => by cases h) ?_
    rintro ⟨q, page, hq, hpage, -⟩
    rw [listFiltered_eq_ok.mpr ⟨q, hq, hpage⟩] at hlist
    cases hlist
  | ok page =>
    obtain ⟨q, hq, hpage⟩ := listFiltered_eq_ok.mp hlist
    constructor
    · intro h
      exact ⟨q, page, hq, hpage, Except.ok.inj h⟩
    · rintro ⟨q', page', hq', hpage', rfl⟩
      obtain rfl := Except.ok.inj (hq.symm.trans hq')
      obtain rfl := Except.ok.inj (hpage.symm.trans hpage')
      rfl

omit [∀ f, LinearOrder (V f)] in
theorem matchingCount_of_ok (hq : R.queryFilter U filters = .ok q) :
    R.matchingCount U filters = (R.table.matching q).length := by
  unfold Orm.FilteredRepository.matchingCount
  rw [hq]

/-- A list in exact page mode answers the number of the matching rows. -/
theorem listed_exact (h : R.listRoute U J E caller params = .ok page)
    (hq : R.queryFilter U (repositoryFilters params) = .ok q) (hmode : q.PageMode)
    (hexact : page.pagination.countMode = .exact) :
    page.pagination.total = R.matchingCount U (repositoryFilters params) := by
  obtain ⟨-, q', hq', hlist⟩ := listRoute_eq_ok.mp h
  obtain rfl := Except.ok.inj (hq.symm.trans hq')
  rw [matchingCount_of_ok hq]
  exact Orm.total_exact hlist hmode hexact

/-- A count answers the number of the matching rows when it asks for no estimate and walks with no
cursor where rows match. -/
theorem count_exact (hexactly : R.CountsExactly U params)
    (h : R.countRoute U J E caller params = .ok n) :
    n = R.matchingCount U (repositoryFilters params) := by
  obtain ⟨-, q, page, hq, hpage, rfl⟩ := countRoute_eq_ok.mp h
  obtain ⟨hestimate, hmode⟩ := hexactly q hq
  by_cases hwalk : q.PageMode
  · rw [matchingCount_of_ok hq]
    exact Orm.total_exact hpage hwalk (Orm.exact_pageMode hpage hwalk hestimate)
  · rw [hmode.resolve_left hwalk]
    exact Orm.total_walk hpage hwalk hestimate

/-- Whatever the planner, a count that is right asks for no estimate and walks with no cursor where rows
match. -/
theorem countsExactly_of_counted (haccepted : R.countRoute U J E caller params = .ok n)
    (h : ∀ planner n', (R.withPlanner planner).countRoute U J E caller params = .ok n' →
      n' = R.matchingCount U (repositoryFilters params)) : R.CountsExactly U params := by
  obtain ⟨hgate, q, page, hq, hpage, -⟩ := countRoute_eq_ok.mp haccepted
  intro q' hq'
  obtain rfl := Except.ok.inj (hq.symm.trans hq')
  have hcounted (planner : String → List String → ℕ) {page' : PaginatedResult ρ}
      (hpage' : Orm.Table.executeList { R.table with estimate := planner } J (.new 1 1) q =
        .ok page') : page'.pagination.total = R.matchingCount U (repositoryFilters params) :=
    h planner _ (countRoute_eq_ok.mpr ⟨hgate, q, page', hq, hpage', rfl⟩)
  have hestimate : q.estimateTotal = false := by
    rw [← Bool.not_eq_true]
    intro htrue
    obtain ⟨page', hpage', htotal⟩ := Orm.exists_estimated hpage htrue
      (n := Orm.Table.exactCountBelow + R.matchingCount U (repositoryFilters params) + 1) (by omega)
    have hwrong := hcounted _ hpage'
    omega
  refine ⟨hestimate, or_iff_not_imp_left.mpr fun hwalk => ?_⟩
  rw [← hcounted R.table.estimate hpage]
  exact Orm.total_walk hpage hwalk hestimate

/-- What an answered aggregate counts. -/
theorem total_aggregateRoute {result : AggregateResult}
    (hsame : aggregateFilters asked = aggregateFilters params)
    (h : R.aggregateRoute U toUppercase E caller asked = .ok result) :
    ((aggregateSpec asked).KeepsTotal →
        result.total.count = R.matchingCount U (aggregateFilters params)) ∧
      (¬ (aggregateSpec asked).KeepsTotal → result.total.count = 0) := by
  rw [← hsame]
  exact total_aggregate (gated_eq_ok.mp h).2

/-- An answered aggregate is answered alike whatever the planner. -/
theorem aggregateRoute_withPlanner (planner : String → List String → ℕ) :
    (R.withPlanner planner).aggregateRoute U toUppercase E caller asked =
      R.aggregateRoute U toUppercase E caller asked := rfl

/-- The three numbers agree whatever the planner exactly when the count asks for no estimate and walks
with no cursor where rows match, and the aggregate keeps its total and leaves out no condition that
narrows. -/
theorem totals_agree_iff (hcount : ∃ n, R.countRoute U J E caller params = .ok n)
    (haggregate : ∃ result, R.aggregateRoute U toUppercase E caller asked = .ok result)
    (hsame : aggregateFilters asked = aggregateFilters params) :
    (∀ planner, (R.withPlanner planner).TotalsAgree U J toUppercase E caller params asked) ↔
      R.CountsExactly U params ∧
        ((aggregateSpec asked).KeepsTotal → R.NarrowsNothing U params) ∧
        (¬ (aggregateSpec asked).KeepsTotal →
          R.matchingCount U (repositoryFilters params) = 0) := by
  obtain ⟨n, hn⟩ := hcount
  obtain ⟨result, hresult⟩ := haggregate
  obtain ⟨hkept, hcut⟩ := total_aggregateRoute hsame hresult
  constructor
  · intro h
    have htotal := (h R.table.estimate).aggregated result hresult
    refine ⟨countsExactly_of_counted hn fun planner => (h planner).counted, fun hkeeps => ?_,
      fun hnot => ?_⟩
    · exact (hkept hkeeps).symm.trans htotal
    · exact htotal.symm.trans (hcut hnot)
  · rintro ⟨hexactly, hnarrows, hzero⟩ planner
    refine ⟨fun _ _ => listed_exact, fun n' hn' => ?_, fun result' hresult' => ?_⟩
    · exact count_exact (R := R.withPlanner planner) hexactly hn'
    · rw [aggregateRoute_withPlanner, hresult] at hresult'
      obtain rfl := Except.ok.inj hresult'
      by_cases hkeeps : (aggregateSpec asked).KeepsTotal
      · exact (hkept hkeeps).trans (hnarrows hkeeps)
      · exact (hcut hkeeps).trans (hzero hkeeps).symm

end Routes

/-! ## Ranked rows -/

open Orm (Ranked)

/-- A repository of two ranked rows. -/
def rankedRepository : AggregateRepository Ranked fun _ => ℕ where
  table := Ranked.table Ranked.allRanked
  columnTypes := [("id", "uuid"), ("rank", "integer")]
  searchFields := []
  baseCondition := none
  catalogCasts := [("id", "uuid"), ("rank", "integer")]
  columns := [("id", "uuid"), ("rank", "integer")]
  relatedColumns _ := []
  text _ v := toString v
  groupable _ := true
  reduce _ _ _ := none

/-- The JSON of the positions of its rows. -/
def rankedJson : Orm.Json := Ranked.jsonOf Ranked.allRanked

/-- The rows behind a rank. -/
def behindThree : ListQueryParams where
  filters := [("rank[gt]", "3")]

/-- The same rows, grouped. -/
def groupedBehindThree : ListQueryParams where
  filters := [("rank[gt]", "3"), ("group_by", "rank")]

/-- No cursor, no estimate and no column of the aggregate's grammar. -/
theorem totals_agree_ranked :
    rankedRepository.countRoute asciiTables rankedJson {} none behindThree = .ok 1 ∧
      rankedRepository.aggregateRoute asciiTables (fun c => [c.toUpper]) {} none
        groupedBehindThree = .ok ⟨[⟨some "5", 1, []⟩], ⟨none, 1, []⟩, false⟩ ∧
      ∀ planner, (rankedRepository.withPlanner planner).TotalsAgree asciiTables rankedJson
        (fun c => [c.toUpper]) {} none behindThree groupedBehindThree := by
  have hq : rankedRepository.queryFilter asciiTables (repositoryFilters behindThree) =
      .ok { conditions := [⟨"rank", .greaterThan, .single "3", .and, some "integer"⟩] } := by decide
  have haggregated : aggregateFilters behindThree = repositoryFilters behindThree := by decide
  have hkeeps : (aggregateSpec groupedBehindThree).KeepsTotal := .inr (by decide)
  have hcount : rankedRepository.countRoute asciiTables rankedJson {} none behindThree = .ok 1 := by
    decide +kernel
  have haggregate : rankedRepository.aggregateRoute asciiTables (fun c => [c.toUpper]) {} none
      groupedBehindThree = .ok ⟨[⟨some "5", 1, []⟩], ⟨none, 1, []⟩, false⟩ := by decide +kernel
  refine ⟨hcount, haggregate, (totals_agree_iff ⟨1, hcount⟩ ⟨_, haggregate⟩ (by decide)).mpr
    ⟨fun q h => ?_, fun _ => congrArg _ haggregated, fun hnot => absurd hkeeps hnot⟩⟩
  obtain rfl := Except.ok.inj (hq.symm.trans h)
  exact ⟨rfl, .inl ⟨rfl, rfl⟩⟩

/-- The position behind the lower rank. -/
def behindFirst : String :=
  (((Ranked.table Ranked.allRanked).rowCursor rankedJson ⟨2, some 3⟩
    (Orm.totalOrder Ranked.byRank.sorts) [some "integer", some "uuid"])).getD ""

/-- A walk by rank, from its second row on. -/
def walked : ListQueryParams where
  filters := [("sort", "rank"), ("after", behindFirst)]

theorem queryFilter_walked : rankedRepository.queryFilter asciiTables (repositoryFilters walked) =
    .ok (Ranked.byRank.atCursor behindFirst false) := rfl

/-- The walk is answered. -/
theorem executeList_walked (pagination : PaginationParams) :
    ∃ page, rankedRepository.table.executeList rankedJson pagination
      (Ranked.byRank.atCursor behindFirst false) = .ok page := by
  have hb : (⟨2, some 3⟩ : Ranked) ∈ (Ranked.table Ranked.allRanked).rows := by decide
  have hsorts : ∀ s ∈ Ranked.byRank.sorts, Orm.ColumnText s.field := by
    simp only [Ranked.byRank, List.mem_singleton, forall_eq]
    exact Orm.columnText_of_all (by decide) (by decide)
  have hkeyed : Keyset.keyed (Ranked.table Ranked.allRanked).value
      (Orm.orderBy (Orm.totalOrder Ranked.byRank.sorts) false) ⟨2, some 3⟩ := by decide
  obtain ⟨text, p, htext, hdecode, hp⟩ := Orm.rowCursor_of_keyed
    Ranked.sortable_allRanked hb (Orm.key_mem_totalOrder _) (.inl rfl)
    (Ranked.roundTrips_allRanked _ hb) hkeyed
  have hcursor : behindFirst = text := congrArg (Option.getD · "") htext
  rw [hcursor]
  obtain ⟨page, hpage, -⟩ := Orm.cursor_reads (by simp [Ranked.byRank])
    (by simp [Ranked.byRank]) (by simp [Ranked.byRank]) hsorts rfl Ranked.sortable_allRanked
    pagination false hb hp hdecode
  exact ⟨page, hpage⟩

/-- Two rows match a walk's conditions, and its count is none. -/
theorem count_of_walk :
    (∃ page, rankedRepository.listRoute asciiTables rankedJson {} none walked = .ok page) ∧
      rankedRepository.countRoute asciiTables rankedJson {} none walked = .ok 0 ∧
      rankedRepository.aggregateRoute asciiTables (fun c => [c.toUpper]) {} none walked =
        .ok ⟨[], ⟨none, 2, []⟩, false⟩ ∧
      ¬ ∀ planner, (rankedRepository.withPlanner planner).TotalsAgree asciiTables rankedJson
        (fun c => [c.toUpper]) {} none walked walked := by
  have hwalk : ¬ (Ranked.byRank.atCursor behindFirst false).PageMode := fun h => by cases h.1
  have hcount : rankedRepository.countRoute asciiTables rankedJson {} none walked = .ok 0 := by
    obtain ⟨page, hpage⟩ := executeList_walked (.new 1 1)
    exact countRoute_eq_ok.mpr ⟨by decide +kernel, _, page, queryFilter_walked, hpage,
      Orm.total_walk hpage hwalk rfl⟩
  have hmatching : rankedRepository.matchingCount asciiTables (repositoryFilters walked) = 2 := by
    rw [matchingCount_of_ok queryFilter_walked]
    rfl
  refine ⟨?_, hcount, by decide +kernel, fun h => ?_⟩
  · obtain ⟨page, hpage⟩ := executeList_walked (.new (normalized walked).page (normalized walked).limit)
    exact ⟨page, listRoute_eq_ok.mpr ⟨by decide +kernel, _, queryFilter_walked, hpage⟩⟩
  · have hagree := (h rankedRepository.table.estimate).counted 0 hcount
    have hwrong := hagree.trans hmatching
    omega

end Backbone.Core
