import Backbone.Orm.Position
import Backbone.Orm.WhereClause

/-!
# Walking a list by its cursors

A client asks for the first page and goes on from each `nextCursor` with `after`, as long as the page
says that more rows follow (`follow`). Page by page this is the walk of `Keyset.walk` over the
matching rows in their total order: every request serves the rows after the position its cursor keeps.

So a walk never repeats a row and stays in the order. It leads on from a page exactly when the last
row of the page has no NULL in the order (a null has no position), and over rows without NULLs it
reads every matching row.
-/

namespace Backbone.Orm

open Sql Keyset

/-! ## The client -/

/-- The pages of a client that follows `nextCursor` while `hasMore`, in `n` requests at most. -/
def follow {ρ : Type} (list : Option String → Except ListError (PaginatedResult ρ)) :
    ℕ → Option String → Except ListError (List (PaginatedResult ρ))
  | 0, _ => .ok []
  | n + 1, cursor => do
    let page ← list cursor
    if page.pagination.hasMore then
      match page.pagination.nextCursor with
      | some text => return page :: (← follow list n (some text))
      | none => return [page]
    else return [page]

variable {ρ : Type} {V : String → Type} [∀ f, LinearOrder (V f)]
  {sorts : List SortSpec} {T : Table ρ V}

/-- The list under a filter, on its first page or after a cursor. -/
def Table.listFrom (T : Table ρ V) (J : Json) (pagination : PaginationParams) (q : QueryFilter)
    (cursor : Option String) : Except ListError (PaginatedResult ρ) :=
  T.executeList J pagination { q with cursorAfter := cursor, cursorBefore := none }

/-- A filter's request at a cursor, on from it or back. -/
def QueryFilter.atCursor (q : QueryFilter) (text : String) (backwards : Bool) : QueryFilter :=
  { q with
    cursorAfter := if backwards then none else some text
    cursorBefore := if backwards then some text else none }

/-- The rows that match a filter. -/
def Table.matching (T : Table ρ V) (q : QueryFilter) : List ρ := T.selected q.buildWhereClause

/-- The keys of a filter's total order. -/
def QueryFilter.order (q : QueryFilter) : List (Key String) := orderBy (totalOrder q.sorts) false

/-- The matching rows in the total order. -/
def Table.listed (T : Table ρ V) (q : QueryFilter) : List ρ :=
  ordered T.value q.order (T.matching q)

/-! ## The total order -/

theorem key_mem_totalOrder (sorts : List SortSpec) :
    ∃ s ∈ totalOrder sorts, s.field = keyColumn := by
  unfold totalOrder
  split
  · rename_i h
    obtain ⟨s, hs, hfield⟩ := List.any_eq_true.mp h
    exact ⟨s, hs, by simpa using hfield⟩
  · exact ⟨⟨keyColumn, .asc⟩, by simp, rfl⟩

theorem columnText_totalOrder (h : ∀ s ∈ sorts, ColumnText s.field) :
    ∀ s ∈ totalOrder sorts, ColumnText s.field := by
  unfold totalOrder
  split
  · exact h
  · refine List.forall_mem_append.mpr ⟨h, ?_⟩
    simp only [List.mem_singleton, forall_eq]
    exact columnText_of_all (by decide) (by decide)

/-- Rows of a table differ in the total order. -/
theorem Table.Sortable.distinct (hT : T.Sortable (totalOrder sorts)) (backwards : Bool) :
    T.rows.Pairwise fun a b => ¬ Same T.value (orderBy (totalOrder sorts) backwards) a b := by
  refine hT.unique.imp fun {a b} hne hsame => hne ?_
  obtain ⟨s, hs, hfield⟩ := key_mem_totalOrder sorts
  have heq : T.value a s.field = T.value b s.field := hsame _ (List.mem_map.mpr ⟨s, hs, rfl⟩)
  rw [hfield] at heq
  exact heq

/-! ## The clause of a walk -/

section Clause

variable {T : Table ρ V} {J : Json} {q : QueryFilter} {b : ρ} {p : CursorPayload}
  (hbase : ∀ c ∈ q.baseConditions, SelfContained c) (hsearch : ∀ f ∈ q.searchFields, ColumnText f)
  (hparsed : ∀ c ∈ q.conditions, c.Parsed) (hsorts : ∀ s ∈ q.sorts, ColumnText s.field)
  (hfirst : evaluates T.meaning q.buildWhereClause.2 q.buildWhereClause.1)
  (hT : T.Sortable (totalOrder q.sorts)) (hb : b ∈ T.rows)
  (hp : T.position b (totalOrder q.sorts) = some p) (backwards : Bool)
include hbase hsearch hparsed hfirst

omit [∀ f, LinearOrder (V f)] in
/-- Every condition of a clause that evaluates has its values. -/
theorem full_of_evaluates : ∀ c ∈ q.conditions, c.Full := by
  rw [evaluates_eq] at hfirst
  exact full_of_selects hbase hsearch hparsed hfirst

omit [∀ f, LinearOrder (V f)] in
/-- Under the parameters of a walk the groups of the clause say what they say without one. -/
theorem groups_walk {ρ' : Type} (M : Meaning ρ') (r : ρ') (post : List String) :
    (∀ g ∈ q.groups, holds M (q.buildWhereClause.2 ++ post) (read g) r) ↔
      selects M q.buildWhereClause.2 q.buildWhereClause.1 r := by
  have hnamed : ∀ c ∈ q.conditions, c.WellNamed := fun c hc => (hparsed c hc).wellNamed
  have hfull := full_of_evaluates hbase hsearch hparsed hfirst
  have hself := holds_groups (M := M) (r := r) hbase hsearch hnamed hfull []
  rw [List.append_nil] at hself
  rw [holds_groups hbase hsearch hnamed hfull, selects_clause hbase hsearch hnamed, hself]

include hsorts hT hb hp

/-- Behind a position the clause selects the matching rows after it, in the direction of the walk. -/
theorem selects_position (r : ρ) :
    selects T.meaning
        (walkClause q p (T.sortColumnCasts (totalOrder q.sorts)) backwards).2
        (walkClause q p (T.sortColumnCasts (totalOrder q.sorts)) backwards).1 r ↔
      selects T.meaning q.buildWhereClause.2 q.buildWhereClause.1 r ∧
        after T.value (orderBy (totalOrder q.sorts) backwards) b r := by
  have hnamed : ∀ c ∈ q.conditions, c.WellNamed := fun c hc => (hparsed c hc).wellNamed
  have hcols := columnText_totalOrder hsorts
  rw [selects_walk hbase hsearch hnamed (named_position hT hcols hp),
    ← groups_walk hbase hsearch hparsed hfirst T.meaning r, KeysetHolds,
    holds_position hT hb hcols (key_mem_totalOrder _) hp]
  rfl

/-- Behind a position the clause still evaluates. -/
theorem evaluates_walk :
    evaluates T.meaning
      (walkClause q p (T.sortColumnCasts (totalOrder q.sorts)) backwards).2
      (walkClause q p (T.sortColumnCasts (totalOrder q.sorts)) backwards).1 := by
  have hnamed : ∀ c ∈ q.conditions, c.WellNamed := fun c hc => (hparsed c hc).wellNamed
  have hcols := columnText_totalOrder hsorts
  have hkeyset := named_position hT hcols hp
  have heval := evaluates_position hT hb hcols (key_mem_totalOrder _) hp backwards
  rw [evaluates_eq, selects_walk hbase hsearch hnamed hkeyset]
  refine ⟨?_, ?_⟩
  · refine (groups_walk hbase hsearch hparsed hfirst T.meaning.always () _).mpr ?_
    rw [← evaluates_eq]
    exact hfirst
  · refine (holds_keyset_iff hkeyset backwards []).mpr ⟨fun t ht d hd => ?_, ?_⟩
    · rw [FilterCondition.Evaluates, valid_always]
      exact heval t ht d hd
    · obtain ⟨t, ts, hts⟩ := chains_eq_cons p (T.sortColumnCasts (totalOrder q.sorts)) backwards
      have ht : t ∈ p.chains (T.sortColumnCasts (totalOrder q.sorts)) backwards := by
        rw [hts]
        exact List.mem_cons_self
      refine ⟨t, ht, fun d hd => ?_⟩
      rw [FilterCondition.HoldsAlone, holds_always]
      exact heval t ht d hd

end Clause

/-! ## One request -/

/-- A request that reads its page backwards. -/
def QueryFilter.backwards (q : QueryFilter) : Bool := q.cursorBefore.isSome && q.cursorAfter.isNone

/-- A request with a cursor. -/
def QueryFilter.cursorWalk (q : QueryFilter) : Bool := q.cursorAfter.isSome || q.backwards

/-- The casts a request resolves. -/
def Table.castsOf (T : Table ρ V) (q : QueryFilter) : List (Option String) :=
  if q.cursorWalk || (totalOrder q.sorts).any fun s => s.field != keyColumn then
    T.sortColumnCasts (totalOrder q.sorts)
  else []

/-- The rows a request reads its page from. -/
def Table.readFrom (T : Table ρ V) (pagination : PaginationParams) (q : QueryFilter)
    (clause : String × List String) : List ρ :=
  (ordered T.value (orderBy (totalOrder q.sorts) q.backwards) (T.selected clause)).drop
    (if q.cursorWalk then 0 else pagination.offset)

/-- A page read from the rows `rest`, which come in reverse when it is read backwards. -/
structure Table.Reads (T : Table ρ V) (J : Json) (sorts : List SortSpec) (limit : ℕ)
    (backwards : Bool) (page : PaginatedResult ρ) (rest : List ρ) : Prop where
  data : page.data = if backwards then (rest.take limit).reverse else rest.take limit
  hasMore : page.pagination.hasMore = decide (limit < rest.length)
  cursors : ∃ casts, T.Casts sorts casts ∧
    page.pagination.nextCursor = (if limit < rest.length ∨ backwards = true then
      page.data.getLast?.bind fun r => T.rowCursor J r sorts casts else none) ∧
    page.pagination.prevCursor = page.data.head?.bind fun r => T.rowCursor J r sorts casts

section Request

variable {T : Table ρ V} {J : Json} {pagination : PaginationParams} {q : QueryFilter}
  {clause : String × List String} {page : PaginatedResult ρ} {α : Type}

omit [∀ f, LinearOrder (V f)] in
theorem run_ok (h : evaluates T.meaning clause.2 clause.1) (answer : α) :
    T.run clause answer = .ok answer := by
  rw [Table.run, if_pos h]

omit [∀ f, LinearOrder (V f)] in
theorem run_eq_ok {answer a : α} :
    T.run clause answer = .ok a ↔ evaluates T.meaning clause.2 clause.1 ∧ answer = a := by
  unfold Table.run
  split
  · rename_i h
    simp [h]
  · rename_i h
    simp [h]

omit [∀ f, LinearOrder (V f)] in
theorem listTotal_ok (h : evaluates T.meaning clause.2 clause.1) (estimateTotal cursorWalk : Bool) :
    ∃ total, T.listTotal estimateTotal cursorWalk clause = .ok total := by
  unfold Table.listTotal Table.estimateFilteredRows Table.countFilteredRows
  simp only [run_ok h, bind, Except.bind, pure, Except.pure]
  split <;> split <;> exact ⟨_, rfl⟩

/-- What an answered request did. -/
theorem executeList_eq_ok :
    T.executeList J pagination q = .ok page ↔
      ∃ clause total, Table.listClause J q (totalOrder q.sorts) (T.castsOf q) q.backwards = .ok clause ∧
        T.listTotal q.estimateTotal q.cursorWalk clause = .ok total ∧
        evaluates T.meaning clause.2 clause.1 ∧
        T.pageOf J pagination (totalOrder q.sorts) (T.castsOf q) q.backwards total
          ((T.readFrom pagination q clause).take (pagination.limit + 1)) = page := by
  unfold Table.executeList
  simp only [bind_eq_ok, pure_eq_ok, Table.fetchAll, run_eq_ok]
  constructor
  · rintro ⟨clause, hclause, total, htotal, rows, ⟨heval, rfl⟩, hpage⟩
    exact ⟨clause, total, hclause, htotal, heval, hpage⟩
  · rintro ⟨clause, total, hclause, htotal, heval, hpage⟩
    exact ⟨clause, hclause, total, htotal, _, ⟨heval, rfl⟩, hpage⟩

omit [∀ f, LinearOrder (V f)] in
theorem casts_castsOf (T : Table ρ V) (q : QueryFilter) :
    T.Casts (totalOrder q.sorts) (T.castsOf q) := by
  unfold Table.castsOf
  split
  · exact .inl rfl
  · rename_i hkey
    rw [Bool.not_eq_true, Bool.or_eq_false_iff, List.any_eq_false] at hkey
    exact .inr ⟨rfl, fun s hs => by simpa using hkey.2 s hs⟩

omit [∀ f, LinearOrder (V f)] in
/-- A page of the fetched rows, one more than it holds. -/
theorem reads_pageOf (backwards : Bool) (total : ℕ × CountMode) (rest : List ρ) :
    T.Reads J (totalOrder q.sorts) pagination.limit backwards
      (T.pageOf J pagination (totalOrder q.sorts) (T.castsOf q) backwards total
        (rest.take (pagination.limit + 1))) rest := by
  have hne : (totalOrder q.sorts).isEmpty = false := by
    obtain ⟨s, hs, -⟩ := key_mem_totalOrder q.sorts
    cases h : totalOrder q.sorts with
    | nil =>
      rw [h] at hs
      cases hs
    | cons => rfl
  have hmore : pagination.limit < (rest.take (pagination.limit + 1)).length ↔
      pagination.limit < rest.length := by
    rw [List.length_take]
    omega
  have htake : (rest.take (pagination.limit + 1)).take pagination.limit =
      rest.take pagination.limit := by
    rw [List.take_take, Nat.min_eq_left (Nat.le_succ _)]
  refine ⟨?_, decide_eq_decide.mpr hmore, T.castsOf q, casts_castsOf T q, ?_, ?_⟩
  · simp only [Table.pageOf, htake]
  · simp only [Table.pageOf, hmore, htake, hne, Bool.not_false, Bool.and_true, Bool.or_eq_true,
      decide_eq_true_eq]
  · have hhead (rows : List ρ) (f : ρ → Option String) :
        (if !rows.isEmpty then rows.head?.bind f else none) = rows.head?.bind f := by
      cases rows <;> rfl
    simp only [Table.pageOf, hne, Bool.not_false, Bool.and_true]
    exact hhead _ _

/-- An answered request read its page from the rows its clause selects. -/
theorem reads_of_ok (h : T.executeList J pagination q = .ok page) :
    ∃ clause, Table.listClause J q (totalOrder q.sorts) (T.castsOf q) q.backwards = .ok clause ∧
      evaluates T.meaning clause.2 clause.1 ∧
      T.Reads J (totalOrder q.sorts) pagination.limit q.backwards page
        (T.readFrom pagination q clause) := by
  obtain ⟨clause, total, hclause, -, heval, rfl⟩ := executeList_eq_ok.mp h
  exact ⟨clause, hclause, heval, reads_pageOf _ _ _⟩

/-- A request whose clause evaluates is answered. -/
theorem exists_reads (pagination : PaginationParams)
    (hclause : Table.listClause J q (totalOrder q.sorts) (T.castsOf q) q.backwards = .ok clause)
    (heval : evaluates T.meaning clause.2 clause.1) :
    ∃ page, T.executeList J pagination q = .ok page ∧
      T.Reads J (totalOrder q.sorts) pagination.limit q.backwards page
        (T.readFrom pagination q clause) := by
  obtain ⟨total, htotal⟩ := listTotal_ok heval q.estimateTotal q.cursorWalk
  exact ⟨_, executeList_eq_ok.mpr ⟨clause, total, hclause, htotal, heval, rfl⟩, reads_pageOf _ _ _⟩

end Request

/-! ## The walk -/

section Walk

variable {T : Table ρ V} {J : Json} {q : QueryFilter} {rest : List ρ} {cursor : Option String}

/-- A page of the rows `rest`. -/
structure Table.Serves (T : Table ρ V) (J : Json) (sorts : List SortSpec) (limit : ℕ)
    (page : PaginatedResult ρ) (rest : List ρ) : Prop where
  data : page.data = rest.take limit
  hasMore : page.pagination.hasMore = decide (limit < rest.length)
  next : ∃ casts, T.Casts sorts casts ∧ page.pagination.nextCursor =
    if limit < rest.length then (rest.take limit).getLast?.bind fun r => T.rowCursor J r sorts casts
    else none

omit [∀ f, LinearOrder (V f)] in
/-- A page read forwards. -/
theorem Table.Reads.serves {sorts : List SortSpec} {limit : ℕ} {page : PaginatedResult ρ}
    (h : T.Reads J sorts limit false page rest) : T.Serves J sorts limit page rest := by
  obtain ⟨casts, hcasts, hnext, -⟩ := h.cursors
  have hdata : page.data = rest.take limit := h.data
  refine ⟨hdata, h.hasMore, casts, hcasts, ?_⟩
  rw [hnext, hdata]
  simp

/-- A cursor behind which the rows `rest` are left. -/
inductive Table.Leaves (T : Table ρ V) (J : Json) (q : QueryFilter) : Option String → List ρ → Prop
  | start : Leaves T J q none (T.listed q)
  | after {b : ρ} {p : CursorPayload} {text : String} (hb : b ∈ T.listed q)
      (hp : T.position b (totalOrder q.sorts) = some p)
      (hdecode : decodeCursor J text (totalOrder q.sorts) = .ok p) :
      Leaves T J q (some text) ((T.listed q).filter (after T.value q.order b))

theorem listed_perm (T : Table ρ V) (q : QueryFilter) : (T.listed q).Perm (T.matching q) :=
  ordered_perm ..

theorem mem_listed {r : ρ} : r ∈ T.listed q ↔ r ∈ T.matching q := (listed_perm T q).mem_iff

theorem mem_rows_of_listed {r : ρ} (h : r ∈ T.listed q) : r ∈ T.rows :=
  List.mem_of_mem_filter (mem_listed.mp h)

/-- The matching rows are strictly in order. -/
theorem pairwise_listed (hT : T.Sortable (totalOrder q.sorts)) :
    (T.listed q).Pairwise fun a b => before T.value q.order a b :=
  pairwise_ordered ((hT.distinct false).sublist List.filter_sublist)

variable (hbase : ∀ c ∈ q.baseConditions, SelfContained c)
  (hsearch : ∀ f ∈ q.searchFields, ColumnText f) (hparsed : ∀ c ∈ q.conditions, c.Parsed)
  (hsorts : ∀ s ∈ q.sorts, ColumnText s.field)
  (hfirst : evaluates T.meaning q.buildWhereClause.2 q.buildWhereClause.1)
  (hT : T.Sortable (totalOrder q.sorts)) (pagination : PaginationParams) (perPage : ℕ)
include hbase hsearch hparsed hsorts hfirst hT

/-- A request at the cursor of a row reads the matching rows after it, in the order of its
direction. -/
theorem cursor_reads (backwards : Bool) {b : ρ} {p : CursorPayload}
    {text : String} (hb : b ∈ T.rows) (hp : T.position b (totalOrder q.sorts) = some p)
    (hdecode : decodeCursor J text (totalOrder q.sorts) = .ok p) :
    ∃ page, T.executeList J pagination (q.atCursor text backwards) = .ok page ∧
      T.Reads J (totalOrder q.sorts) pagination.limit backwards page
        ((ordered T.value (orderBy (totalOrder q.sorts) backwards) (T.matching q)).filter
          (after T.value (orderBy (totalOrder q.sorts) backwards) b)) := by
  have hselected : T.selected
      (walkClause q p (T.sortColumnCasts (totalOrder q.sorts)) backwards) =
        (T.matching q).filter (after T.value (orderBy (totalOrder q.sorts) backwards) b) := by
    rw [Table.matching, Table.selected, Table.selected, List.filter_filter]
    refine List.filter_congr fun r _ => ?_
    rw [Bool.eq_iff_iff, Bool.and_eq_true, and_comm]
    exact selects_position hbase hsearch hparsed hsorts hfirst hT hb hp backwards r
  have hdirection : (q.atCursor text backwards).backwards = backwards := by
    cases backwards <;> rfl
  have hwalk : (q.atCursor text backwards).cursorWalk = true := by
    cases backwards <;> rfl
  have hclause : Table.listClause J (q.atCursor text backwards) (totalOrder q.sorts)
      (T.castsOf (q.atCursor text backwards)) (q.atCursor text backwards).backwards =
        .ok (walkClause q p (T.sortColumnCasts (totalOrder q.sorts)) backwards) := by
    rw [hdirection, Table.castsOf, hwalk]
    cases backwards <;>
      simp only [Table.listClause, QueryFilter.atCursor, hdecode, Bool.true_or, if_true,
        Bool.false_eq_true, if_false] <;> rfl
  have hread : T.readFrom pagination (q.atCursor text backwards)
      (walkClause q p (T.sortColumnCasts (totalOrder q.sorts)) backwards) =
        (ordered T.value (orderBy (totalOrder q.sorts) backwards) (T.matching q)).filter
          (after T.value (orderBy (totalOrder q.sorts) backwards) b) := by
    rw [Table.readFrom, hdirection, hwalk, if_pos rfl, List.drop_zero, hselected]
    exact ordered_filter ((hT.distinct backwards).sublist List.filter_sublist) _
  obtain ⟨page, hpage, hreads⟩ := exists_reads pagination hclause
    (evaluates_walk hbase hsearch hparsed hsorts hfirst hT hb hp backwards)
  rw [hdirection, hread] at hreads
  exact ⟨page, hpage, hreads⟩

omit hbase hsearch hparsed hsorts hT in
/-- A request by number reads the matching rows behind its offset. -/
theorem number_reads :
    ∃ page, T.listFrom J pagination q none = .ok page ∧
      T.Reads J (totalOrder q.sorts) pagination.limit false page
        ((T.listed q).drop pagination.offset) :=
  exists_reads (q := { q with cursorAfter := none, cursorBefore := none }) pagination rfl hfirst

/-- A request serves the rows its cursor leaves. -/
theorem listFrom_serves (h : T.Leaves J q cursor rest) :
    ∃ page, T.listFrom J (.new 1 perPage) q cursor = .ok page ∧
      T.Serves J (totalOrder q.sorts) (PaginationParams.new 1 perPage).limit page rest := by
  cases h with
  | start =>
    have hoffset : (PaginationParams.new 1 perPage).offset = 0 := by
      simp [PaginationParams.offset, PaginationParams.new]
    obtain ⟨page, hpage, hreads⟩ := number_reads hfirst (.new 1 perPage)
    rw [hoffset, List.drop_zero] at hreads
    exact ⟨page, hpage, hreads.serves⟩
  | after hb hp hdecode =>
    obtain ⟨page, hpage, hreads⟩ := cursor_reads hbase hsearch hparsed hsorts hfirst hT
      (.new 1 perPage) false (mem_rows_of_listed hb) hp hdecode
    exact ⟨page, hpage, hreads.serves⟩

omit hbase hsearch hparsed hsorts hfirst hT in
theorem Table.Leaves.subset (h : T.Leaves J q cursor rest) : ∀ r ∈ rest, r ∈ T.listed q := by
  cases h with
  | start => exact fun r hr => hr
  | after => exact fun r hr => List.mem_of_mem_filter hr

/-- What a client sees of a page. -/
def PaginatedResult.seen (page : PaginatedResult ρ) : Keyset.Page ρ where
  rows := page.data
  more := page.pagination.hasMore

/-- Does the page lead on when more rows follow? It does unless its last row has a NULL in the
order. -/
def Table.LeadsOn (T : Table ρ V) (q : QueryFilter) (page : PaginatedResult ρ) : Prop :=
  page.pagination.hasMore → (page.pagination.nextCursor.isSome ↔
    ∃ r, page.data.getLast? = some r ∧ keyed T.value q.order r)

omit hbase hsearch hparsed hsorts hfirst hT in
theorem limit_pos : 0 < (PaginationParams.new 1 perPage).limit := by
  simp only [PaginationParams.limit, PaginationParams.new]
  omega

/-- A client that follows the cursors walks the matching rows. -/
theorem follow_walk (hJ : ∀ r ∈ T.rows, ∀ p, T.position r (totalOrder q.sorts) = some p →
    J.RoundTrips p) (h : T.Leaves J q cursor rest) (n : ℕ) :
    ∃ pages, follow (T.listFrom J (.new 1 perPage) q) n cursor = .ok pages ∧
      pages.map PaginatedResult.seen =
        walk T.value q.order (PaginationParams.new 1 perPage).limit (T.listed q) n rest ∧
      ∀ page ∈ pages, T.LeadsOn q page := by
  induction n generalizing cursor rest with
  | zero => exact ⟨[], rfl, rfl, by simp⟩
  | succ n ih =>
    obtain ⟨page, hpage, hserves⟩ :=
      listFrom_serves hbase hsearch hparsed hsorts hfirst hT perPage h
    obtain ⟨casts, hcasts, hnext⟩ := hserves.next
    have hstep : follow (T.listFrom J (.new 1 perPage) q) (n + 1) cursor =
        if page.pagination.hasMore then
          match page.pagination.nextCursor with
          | some text =>
            follow (T.listFrom J (.new 1 perPage) q) n (some text) >>= fun pages =>
              pure (page :: pages)
          | none => pure [page]
        else pure [page] := by
      rw [follow, hpage]
      rfl
    have hseen : page.seen = ⟨rest.take (PaginationParams.new 1 perPage).limit,
        decide ((PaginationParams.new 1 perPage).limit < rest.length)⟩ := by
      rw [PaginatedResult.seen, hserves.data, hserves.hasMore]
    by_cases hmore : (PaginationParams.new 1 perPage).limit < rest.length
    · have hyes : page.pagination.hasMore = true := by rw [hserves.hasMore]; simpa using hmore
      have hne : rest.take (PaginationParams.new 1 perPage).limit ≠ [] := by
        have := limit_pos perPage
        rw [← List.length_pos_iff, List.length_take]
        omega
      have hb := List.getLast?_eq_some_getLast hne
      generalize (rest.take (PaginationParams.new 1 perPage).limit).getLast hne = b at hb
      have hlisted := h.subset b (List.mem_of_mem_take (List.mem_of_getLast? hb))
      have hrow := mem_rows_of_listed hlisted
      rw [if_pos hmore, hb, Option.bind_some] at hnext
      by_cases hkeyed : keyed T.value q.order b
      · obtain ⟨text, p, htext, hdecode, hp⟩ := rowCursor_of_keyed hT hrow (key_mem_totalOrder _)
          hcasts (hJ b hrow) hkeyed
        rw [htext] at hnext
        obtain ⟨pages, hpages, hwalk, hleads⟩ := ih (.after hlisted hp hdecode)
        refine ⟨page :: pages, ?_, ?_, List.forall_mem_cons.mpr ⟨fun _ => ?_, hleads⟩⟩
        · simp only [hstep, hyes, hnext, hpages, if_true]
          rfl
        · rw [List.map_cons, hseen, hwalk, walk_next hmore hb hkeyed]
        · simp [hnext, hserves.data, hb, hkeyed]
      · rw [Bool.not_eq_true] at hkeyed
        rw [rowCursor_of_null hT hrow hcasts hkeyed] at hnext
        refine ⟨[page], by simp only [hstep, hyes, hnext, if_true]; rfl, ?_, ?_⟩
        · rw [List.map_singleton, hseen, walk_stop fun _ c hc => ?_]
          rw [hb] at hc
          cases hc
          exact hkeyed
        · simp [Table.LeadsOn, hnext, hserves.data, hb, hkeyed]
    · have hnot : page.pagination.hasMore = false := by rw [hserves.hasMore]; simpa using hmore
      refine ⟨[page], by rw [hstep, hnot]; rfl, ?_, ?_⟩
      · rw [List.map_singleton, hseen, walk_stop fun h => absurd h hmore]
      · simp [Table.LeadsOn, hnot]

end Walk

/-! ## What a walk reads -/

/-- The rows of the pages. -/
def rowsOf (pages : List (PaginatedResult ρ)) : List ρ := pages.flatMap PaginatedResult.data

/-- Pages of a walk: matching rows in the total order, none of them twice. -/
structure Table.Walked (T : Table ρ V) (q : QueryFilter) (pages : List (PaginatedResult ρ)) :
    Prop where
  rows : ∀ r ∈ rowsOf pages, r ∈ T.matching q
  inOrder : (rowsOf pages).Pairwise fun a b => before T.value q.order a b
  leadsOn : ∀ page ∈ pages, T.LeadsOn q page

/-- Pages of a walk that could go on while more rows followed, and read every matching row. -/
structure Table.Completed (T : Table ρ V) (q : QueryFilter) (pages : List (PaginatedResult ρ)) :
    Prop where
  rows : (rowsOf pages).Perm (T.matching q)
  leadsOn : ∀ page ∈ pages, page.pagination.hasMore → page.pagination.nextCursor.isSome
  ends : ∃ page, pages.getLast? = some page ∧ page.pagination.hasMore = false

theorem rowsOf_eq (pages : List (PaginatedResult ρ)) :
    (pages.map PaginatedResult.seen).flatMap Page.rows = rowsOf pages := by
  rw [List.flatMap_map]
  rfl

/-- The first page was read, so its clause evaluates. -/
theorem evaluates_of_first {J : Json} {q : QueryFilter} {perPage : ℕ}
    {page : PaginatedResult ρ} (h : T.listFrom J (.new 1 perPage) q none = .ok page) :
    evaluates T.meaning q.buildWhereClause.2 q.buildWhereClause.1 := by
  obtain ⟨clause, hclause, heval, -⟩ := reads_of_ok h
  cases hclause
  exact heval

/-- Following the cursors of a list from its first page yields matching rows in the total order, none
of them twice, and leads on from a page with more rows behind it unless its last row has a NULL in
the order. Without NULLs from the last row of the first page on, it leads on while more rows follow
and yields every matching row. -/
theorem list_walk (T : Table ρ V) (J : Json) {U : Text.CharTables} {params : List (String × String)}
    {columnTypes : ColumnTypes} {allowedFields : Option (List String)} {q : QueryFilter}
    (hparse : parseFilters U params columnTypes allowedFields = .ok q)
    (htypes : ∀ t ∈ columnTypes, TypeName t.2) {base : List String}
    (hbase : ∀ b ∈ base, SelfContained b) (search : Option String) {fields : List String}
    (hfields : ∀ f ∈ fields, ColumnText f) (hT : T.Sortable (totalOrder q.sorts))
    (hJ : ∀ r ∈ T.rows, ∀ p, T.position r (totalOrder q.sorts) = some p → J.RoundTrips p)
    (perPage : ℕ) {first : PaginatedResult ρ}
    (hfirst : T.listFrom J (.new 1 perPage)
      { q with baseConditions := base, search := search, searchFields := fields } none = .ok first)
    (n : ℕ) :
    let limit := (PaginationParams.new 1 perPage).limit
    let filter := { q with baseConditions := base, search := search, searchFields := fields }
    ∃ pages, follow (T.listFrom J (.new 1 perPage) filter) n none = .ok pages ∧
      T.Walked filter pages ∧
      ((∀ r ∈ (T.listed filter).drop (limit - 1), keyed T.value filter.order r) →
        0 < n → (T.matching filter).length ≤ n * limit → T.Completed filter pages) := by
  intro limit filter
  obtain ⟨hparsed, -, hsorts, -, -⟩ := parseFilters_ok htypes hparse
  have hpairwise := pairwise_listed (q := filter) hT
  have hremains := remains_refl hpairwise
  obtain ⟨pages, hpages, hwalk, hleads⟩ := follow_walk (q := filter) hbase hfields hparsed hsorts
    (evaluates_of_first hfirst) hT perPage hJ .start n
  have hsub : (rowsOf pages).Sublist (T.listed filter) := by
    rw [← rowsOf_eq, hwalk]
    exact walk_sublist hremains n
  refine ⟨pages, hpages, ⟨fun r hr => mem_listed.mp (hsub.subset hr),
    hpairwise.sublist hsub, hleads⟩, fun hkeyed hpos hlen => ?_⟩
  obtain ⟨m, rfl⟩ := Nat.exists_eq_succ_of_ne_zero hpos.ne'
  have hlen' : (T.listed filter).length ≤ (m + 1) * limit := by
    rw [(listed_perm T filter).length_eq]
    exact hlen
  have hdone := walk_completes hremains (limit_pos perPage) hkeyed hlen'
  rw [← hwalk] at hdone
  refine ⟨?_, fun page hpage hmore => ?_, ?_⟩
  · rw [← rowsOf_eq, hdone.rows_eq]
    exact listed_perm T filter
  · exact (hleads page hpage hmore).mpr (hdone.keyed _ (List.mem_map_of_mem hpage) hmore)
  · obtain ⟨seen, hseen, hend⟩ := hdone.ends
    rw [List.getLast?_map] at hseen
    obtain ⟨page, hpage, rfl⟩ := Option.map_eq_some_iff.mp hseen
    exact ⟨page, hpage, hend⟩

/-! ## Two lists -/

/-- The operator of a comparison's symbol. -/
def comparisonOf : List Char → FilterOperator
  | ['='] => .equal
  | ['>'] => .greaterThan
  | _ => .lessThan

/-- A row with a number for its key, printed as a uuid, and a rank that may be NULL. -/
structure Ranked where
  id : ℕ
  rank : Option ℕ
deriving DecidableEq, Repr

namespace Ranked

variable {rows : List Ranked}

def value (r : Ranked) : String → Option ℕ
  | "id" => some r.id
  | "rank" => r.rank
  | _ => none

/-- The digits a uuid ends on. -/
def uuidText (n : ℕ) : String := "00000000-0000-4000-8000-0000000000" ++ toString (n + 10)

def input (column : String) (_ : Option String) (text : String) : Option ℕ :=
  match column with
  | "id" => (Text.parseU32 (String.ofList (text.toList.drop 34))).map (· - 10)
  | _ => Text.parseU32 text

/-- A table of ranked rows. -/
def table (rows : List Ranked) : Table Ranked fun _ => ℕ where
  rows := rows
  value := value
  column
    | "id" => some ⟨"uuid", "uuid", "pg_catalog"⟩
    | "rank" => some ⟨"integer", "int4", "pg_catalog"⟩
    | _ => none
  tryGet
    | .uuid, r, "id" => some (some (uuidText r.id))
    | .i32, r, "rank" => some (r.rank.map toString)
    | _, _, _ => none
  input := input
  meaning
    | .word c :: .sym op :: .hole v :: _ =>
      (input (String.ofList c) none v).map fun x r =>
        compareNull (comparisonOf op) (r.value (String.ofList c)) x
    | _ => none
  estimate _ _ := rows.length

/-- A column whose comparisons read as comparisons. -/
theorem compares_of_reads {f t : String} (hcast : (table rows).castOf f = some t)
    (hread : ∀ op ∈ [FilterOperator.equal, .greaterThan, .lessThan],
      read ((comparison f op "" (some t)).sql 1) =
        some (.atom [.word f.toList, .sym op.asSql.toList, .hole 1, .sym [':', ':'],
          .word t.toList])) :
    ∀ op, Compares op → ∀ v,
      (read ((comparison f op v ((table rows).castOf f)).sql 1)).bind
          (Cond.eval (table rows).meaning [v]) =
        ((table rows).input f ((table rows).castOf f) v).map fun x r =>
          compareNull op ((table rows).value r f) x := by
  intro op hop v
  have hsql : (comparison f op v (some t)).sql 1 = (comparison f op "" (some t)).sql 1 := by
    rcases hop with rfl | rfl | rfl <;> rfl
  have hcmp : comparisonOf op.asSql.toList = op := by
    rcases hop with rfl | rfl | rfl <;> rfl
  have heval : Cond.eval (table rows).meaning [v] (.atom [.word f.toList, .sym op.asSql.toList,
      .hole 1, .sym [':', ':'], .word t.toList]) =
        (input (String.ofList f.toList) none v).map fun x r =>
          compareNull (comparisonOf op.asSql.toList) (r.value (String.ofList f.toList)) x := rfl
  rw [hcast, hsql, hread op (by rcases hop with rfl | rfl | rfl <;> simp), Option.bind_some, heval,
    hcmp, String.ofList_toList]
  rfl

theorem keyable_rank (h : ∀ r ∈ rows, ∀ x ∈ r.rank, Text.parseU32 (toString x) = some x) :
    (table rows).Keyable "rank" where
  cast t ht := by
    cases ht
    exact ⟨rfl, by decide, rfl, ⟨_, _, rfl, by decide⟩⟩
  null r _ hnull := by
    change r.rank = none at hnull
    change r.rank.map toString = none
    rw [hnull]
    rfl
  text r hr x hx := by
    change r.rank = some x at hx
    refine ⟨toString x, ?_, h r hr x hx⟩
    change r.rank.map toString = some (toString x)
    rw [hx]
    rfl
  compares := compares_of_reads rfl (by decide)

theorem keyable_id (h : ∀ r ∈ rows, input "id" (some "uuid") (uuidText r.id) = some r.id) :
    (table rows).Keyable "id" where
  cast t ht := by
    cases ht
    exact ⟨rfl, by decide, rfl, ⟨_, _, rfl, by decide⟩⟩
  null r _ hnull := by cases hnull
  text r hr x hx := by
    have hcast : (table rows).castOf "id" = some "uuid" := rfl
    have hinput : (table rows).input = input := rfl
    cases hx
    rw [hcast, hinput]
    exact ⟨uuidText r.id, by rw [Table.textOf, hcast]; rfl, h r hr⟩
  compares := compares_of_reads rfl (by decide)

/-- Two rows that both have a rank. -/
def allRanked : List Ranked := [⟨1, some 5⟩, ⟨2, some 3⟩]

/-- Three rows, two of them without a rank. -/
def someNull : List Ranked := [⟨1, none⟩, ⟨2, none⟩, ⟨3, some 4⟩]

theorem sortable (hrank : ∀ r ∈ rows, ∀ x ∈ r.rank, Text.parseU32 (toString x) = some x)
    (hid : ∀ r ∈ rows, input "id" (some "uuid") (uuidText r.id) = some r.id)
    (hunique : rows.Pairwise fun a b => a.id ≠ b.id) :
    (table rows).Sortable (totalOrder [⟨"rank", .asc⟩]) where
  uuid := rfl
  present _ _ := rfl
  unique := hunique.imp fun h heq => h (Option.some_inj.mp heq)
  columns := by
    simp only [totalOrder, keyColumn, List.any_cons, List.any_nil, Bool.or_false]
    exact List.forall_mem_cons.mpr ⟨keyable_rank hrank, List.forall_mem_cons.mpr
      ⟨keyable_id hid, by simp⟩⟩

/-- What the list by rank asks for. -/
def byRank : QueryFilter where
  sorts := [⟨"rank", .asc⟩]

theorem parse_byRank : parseFilters Text.asciiTables [("sort", "rank")] [] none = .ok byRank := rfl

/-- The JSON of the positions of the rows. -/
def jsonOf (rows : List Ranked) : Json :=
  json (rows.filterMap fun r => (table rows).position r (totalOrder byRank.sorts))

theorem roundTrips_jsonOf
    (h : ∀ p ∈ rows.filterMap fun r => (table rows).position r (totalOrder byRank.sorts),
      (jsonOf rows).fromSlice ((jsonText p).toList.map fun c => UInt8.ofNat c.toNat) = .ok p) :
    ∀ r ∈ rows, ∀ p, (table rows).position r (totalOrder byRank.sorts) = some p →
      (jsonOf rows).RoundTrips p :=
  fun r hr p hp => ⟨_, rfl, h p (List.mem_filterMap.mpr ⟨r, hr, hp⟩)⟩

theorem sortable_allRanked : (table allRanked).Sortable (totalOrder byRank.sorts) :=
  sortable (by decide) (by decide) (by decide)

theorem roundTrips_allRanked : ∀ r ∈ allRanked, ∀ p,
    (table allRanked).position r (totalOrder byRank.sorts) = some p →
      (jsonOf allRanked).RoundTrips p :=
  roundTrips_jsonOf (by decide +kernel)

/-- Rows that all have a rank, one to a page. -/
theorem list_walk_ranked :
    ∃ pages, follow ((table allRanked).listFrom (jsonOf allRanked) (.new 1 1) byRank) 2 none =
      .ok pages ∧ (table allRanked).Walked byRank pages ∧ (table allRanked).Completed byRank pages := by
  have hbase : ∀ b ∈ ([] : List String), SelfContained b := by simp
  have hfields : ∀ f ∈ ([] : List String), ColumnText f := by simp
  have hfirst : ∃ page, (table allRanked).listFrom (jsonOf allRanked) (.new 1 1) byRank none =
      .ok page := ⟨_, rfl⟩
  obtain ⟨page, hpage⟩ := hfirst
  obtain ⟨pages, hpages, hwalked, hcompleted⟩ := list_walk (table allRanked) (jsonOf allRanked)
    parse_byRank (by simp) hbase none hfields sortable_allRanked roundTrips_allRanked 1 hpage 2
  exact ⟨pages, hpages, hwalked, hcompleted (by decide) (by decide) (by decide)⟩

/-- The first page of two ends on a NULL: more rows follow, and nothing leads on. -/
theorem null_ends_walk :
    parseFilters Text.asciiTables [("sort", "rank")] [] none = .ok byRank ∧
    (table someNull).Sortable (totalOrder byRank.sorts) ∧
    (∀ r ∈ someNull, ∀ p, (table someNull).position r (totalOrder byRank.sorts) = some p →
      (jsonOf someNull).RoundTrips p) ∧
    ∃ page, page.pagination.hasMore = true ∧ page.pagination.nextCursor = none ∧
      ¬ (rowsOf [page]).Perm ((table someNull).matching byRank) ∧
      ∀ n, follow ((table someNull).listFrom (jsonOf someNull) (.new 1 2) byRank) (n + 1) none =
        .ok [page] := by
  let page : PaginatedResult Ranked := ⟨[⟨3, some 4⟩, ⟨1, none⟩], ⟨1, 2, 3, none,
    (table someNull).rowCursor (jsonOf someNull) ⟨3, some 4⟩ (totalOrder byRank.sorts)
      [some "integer", some "uuid"], true, .exact⟩⟩
  have hfirst : (table someNull).listFrom (jsonOf someNull) (.new 1 2) byRank none = .ok page := rfl
  refine ⟨rfl, sortable (by decide) (by decide) (by decide),
    roundTrips_jsonOf (by decide +kernel), page, rfl, rfl, by decide, fun n => ?_⟩
  rw [follow, hfirst]
  rfl

end Ranked

end Backbone.Orm
