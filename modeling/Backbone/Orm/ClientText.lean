import Backbone.Orm.ListQuery
import Backbone.Orm.ParamEffects

/-!
# What a client's text does to a statement

A column of a parsed filter is spelled with letters, digits and underscores, or is one of the three
expressions that read an audit timestamp, and an allow-list holds its name. Of a client's values the
text of a WHERE clause shows only what `textShape` reads: the searched columns, whether there is a
term to search for, and how many values a list has. Everything else of them is bound.

Reference: `backbone-orm/src/filter/{parser,validation,query,cursor}.rs`.
-/

namespace Backbone.Orm

open Text

variable {value : String} {params : List (String × String)} {c : FilterCondition}
  {x : String × String} {q : QueryFilter}

/-! ## Columns -/

/-- The SQL of a column a client may name: of a sanitized field the allow-list lets through. -/
def Guarded (U : CharTables) (allowedFields : Option (List String)) (sql : String) : Prop :=
  ∃ name field, sanitizeFieldName U name = some field ∧ allows allowedFields field = true ∧
    NamesColumn field sql

/-- An identifier: letters, digits and underscores, at least one of them. -/
def Identifier (U : CharTables) (s : String) : Prop :=
  s ≠ "" ∧ ∀ c ∈ s.toList, U.isAlphanumeric c = true ∨ c = '_'

section Columns

variable {U : CharTables} {columnTypes : ColumnTypes} {allowedFields : Option (List String)}
  {field key : String} {name sql : String}

theorem identifier_lowerFirst {c : Char} (h : U.isAlphanumeric c || c == '_') :
    U.isAlphanumeric (U.lowerFirst c) = true ∨ U.lowerFirst c = '_' := by
  rcases U.lowerFirst_eq_or c with hc | hc
  · rw [hc]
    simpa using h
  · exact .inl hc

theorem identifier_of_sanitize (h : sanitizeFieldName U name = some field) :
    Identifier U field := by
  obtain ⟨hne, hword⟩ := word_of_sanitize h
  rw [eq_toSnakeCase_of_sanitize h]
  constructor
  · have hname : name.toList ≠ [] := by simpa using hne
    obtain ⟨c, cs, hcs⟩ := List.exists_cons_of_ne_nil hname
    simp [toSnakeCase, hcs, snakeFrom]
  · simpa [toSnakeCase] using
      forall_mem_snakeFrom (fun d => U.isAlphanumeric d = true ∨ d = '_') (.inr rfl)
        (fun c hc => identifier_lowerFirst (hword c hc)) true

theorem auditMetadataSqlExpr_of_mem (h : field ∈ auditMetadataFields) :
    auditMetadataSqlExpr field = some (fieldSql field) := by
  simp [fieldSql, auditMetadataSqlExpr, h]

/-- A guarded column is an identifier or reads an audit timestamp. -/
theorem Guarded.identifier (h : Guarded U allowedFields sql) :
    Identifier U sql ∨ ∃ field, auditMetadataSqlExpr field = some sql := by
  obtain ⟨name, field, hname, -, rfl | rfl⟩ := h
  · exact .inl (identifier_of_sanitize hname)
  · by_cases haudit : field ∈ auditMetadataFields
    · exact .inr ⟨field, auditMetadataSqlExpr_of_mem haudit⟩
    · rw [fieldSql_of_not_audit haudit]
      exact .inl (identifier_of_sanitize hname)

/-- An allow-list holds the name of a guarded column. -/
theorem Guarded.listed {allowed : List String} (h : Guarded U (some allowed) sql) :
    sql ∈ allowed ∨ ∃ field ∈ allowed, auditMetadataSqlExpr field = some sql := by
  obtain ⟨name, field, -, hallow, hsql⟩ := h
  have hmem : field ∈ allowed := by simpa [allows] using hallow
  rcases hsql with rfl | rfl
  · exact .inl hmem
  · by_cases haudit : field ∈ auditMetadataFields
    · exact .inr ⟨field, hmem, auditMetadataSqlExpr_of_mem haudit⟩
    · rw [fieldSql_of_not_audit haudit]
      exact .inl hmem

/-! ## Every position of a name -/

/-- The sorts and the searched columns gathered so far are guarded. -/
structure Parsed.GuardedColumns (U : CharTables) (allowedFields : Option (List String))
    (p : Parsed) : Prop where
  sorts : ∀ s ∈ p.filter.sorts, Guarded U allowedFields s.field
  searchFields : ∀ f ∈ p.filter.searchFields, Guarded U allowedFields f

variable {p p' : Parsed}

theorem Parsed.GuardedColumns.addSort (h : p.GuardedColumns U allowedFields) {sort : SortSpec}
    (hsort : Guarded U allowedFields sort.field) :
    Parsed.GuardedColumns U allowedFields { p with filter := p.filter.addSort sort } := by
  refine ⟨fun s hs => ?_, h.searchFields⟩
  rcases List.mem_append.mp hs with hs | hs
  · exact h.sorts s hs
  · rw [List.mem_singleton.mp hs]
    exact hsort

theorem Parsed.GuardedColumns.sortBy (h : p.GuardedColumns U allowedFields)
    (hname : sanitizeFieldName U name = some field) (hsql : NamesColumn field sql)
    (direction : SortDirection) :
    (p.sortBy allowedFields field sql direction).GuardedColumns U allowedFields := by
  unfold Parsed.sortBy
  split
  · exact h.addSort ⟨name, field, hname, ‹_›, hsql⟩
  · exact h

section

variable (hp : p.GuardedColumns U allowedFields)
include hp

theorem sortPart_guarded {part : String}
    (h : sortPart U key allowedFields p part = .ok p') : p'.GuardedColumns U allowedFields := by
  simp only [sortPart] at h
  split at h
  · cases h
    exact hp
  · obtain ⟨field, hfield, hok⟩ := bind_eq_ok.mp h
    cases hok
    exact hp.sortBy (fieldOf_ok hfield) (namesColumn_fieldSql field) _

theorem sortParts_guarded {parts : List String}
    (h : parts.foldlM (sortPart U key allowedFields) p = .ok p') :
    p'.GuardedColumns U allowedFields := by
  induction parts generalizing p with
  | nil =>
    cases h
    exact hp
  | cons part parts ih =>
    rw [List.foldlM_cons] at h
    obtain ⟨q, hq, hrest⟩ := bind_eq_ok.mp h
    exact ih (sortPart_guarded hp hq) hrest

theorem sortSingle_guarded
    (h : sortSingle U key value allowedFields p = .ok p') : p'.GuardedColumns U allowedFields := by
  simp only [sortSingle] at h
  split at h
  · cases h
    exact hp
  · obtain ⟨field, hfield, hok⟩ := bind_eq_ok.mp h
    cases hok
    exact hp.sortBy (fieldOf_ok hfield) (namesColumn_fieldSql field) _

end

theorem searchColumns_guarded {columns : List String}
    (h : searchColumns U key value allowedFields = .ok columns) :
    ∀ f ∈ columns, Guarded U allowedFields f := by
  obtain ⟨fields, hfields, hok⟩ := bind_eq_ok.mp h
  cases hok
  intro f hf
  obtain ⟨hmem, hallow⟩ := List.mem_filter.mp hf
  obtain ⟨name, -, hname⟩ := Table.exists_of_mem_right (mapM_eq_ok.mp hfields) hmem
  exact ⟨name, f, fieldOf_ok hname, hallow, namesColumn_self f⟩

theorem parseOperator_guarded {operatorStr : String}
    (hfield : sanitizeFieldName U name = some field) (hallow : allows allowedFields field = true)
    (hp : p.GuardedColumns U allowedFields)
    (h : parseOperator U columnTypes key value field operatorStr p = .ok p') :
    p'.GuardedColumns U allowedFields := by
  unfold parseOperator at h
  split at h
  · cases h
    exact hp.addSort ⟨name, field, hfield, hallow, namesColumn_fieldSql field⟩
  · cases h
    exact ⟨hp.sorts, hp.searchFields⟩
  · cases h
    exact ⟨hp.sorts, hp.searchFields⟩
  · split at h
    · cases h
      exact ⟨hp.sorts, hp.searchFields⟩
    · cases h

section

variable (hp : p.GuardedColumns U allowedFields)
include hp

theorem parseBracket_guarded {operatorStr : String}
    (h : parseBracket U columnTypes allowedFields key value field operatorStr p = .ok p') :
    p'.GuardedColumns U allowedFields := by
  obtain ⟨name, hname, ⟨-, rfl⟩ | ⟨-, -, sortField, hsort, rfl⟩ | ⟨hallow, -, hok⟩⟩ :=
    parseBracket_cases h
  · exact hp
  · exact hp.sortBy (fieldOf_ok hsort) (namesColumn_self sortField) _
  · exact parseOperator_guarded (fieldOf_ok hname) hallow hp hok

theorem parsePlain_guarded (h : parsePlain U columnTypes allowedFields key value p = .ok p') :
    p'.GuardedColumns U allowedFields := by
  unfold parsePlain at h
  split at h
  case h_1 | h_2 =>
    split at h
    · exact sortParts_guarded hp h
    · exact sortSingle_guarded hp h
  case h_4 =>
    obtain ⟨columns, hcolumns, hok⟩ := bind_eq_ok.mp h
    cases hok
    exact ⟨hp.sorts, searchColumns_guarded hcolumns⟩
  case h_3 | h_11 | h_12 | h_13 | h_14 =>
    cases h
    exact ⟨hp.sorts, hp.searchFields⟩
  case h_15 =>
    split at h
    · cases h
      exact hp
    · obtain ⟨field, -, hok⟩ := bind_eq_ok.mp h
      split at hok
      · cases hok
        exact hp
      · cases hok
        exact ⟨hp.sorts, hp.searchFields⟩
  all_goals
    split at h
    · cases h
      exact hp
    · obtain ⟨n, -, hok⟩ := bind_eq_ok.mp h
      cases hok
      exact ⟨hp.sorts, hp.searchFields⟩

theorem parseParam_guarded {param : String × String}
    (h : parseParam U columnTypes allowedFields p param = .ok p') :
    p'.GuardedColumns U allowedFields := by
  simp only [parseParam] at h
  split at h
  · cases h
    exact hp
  · split at h
    · split at h
      · exact parseBracket_guarded hp h
      · cases h
    · exact parsePlain_guarded hp h

theorem parseParams_guarded
    (h : params.foldlM (parseParam U columnTypes allowedFields) p = .ok p') :
    p'.GuardedColumns U allowedFields := by
  induction params generalizing p with
  | nil =>
    cases h
    exact hp
  | cons x params ih =>
    rw [List.foldlM_cons] at h
    obtain ⟨q, hq, hrest⟩ := bind_eq_ok.mp h
    exact ih (parseParam_guarded hp hq) hrest

end

/-- The column of a parameter's condition is guarded. -/
theorem conditionOf_guarded (h : conditionOf U columnTypes allowedFields x = some c) :
    Guarded U allowedFields c.field := by
  obtain ⟨name, operatorStr, field, -, hfield, hallow, hc⟩ := conditionOf_eq_some.mp h
  refine ⟨name, field, hfield, hallow, ?_⟩
  rcases operatorCondition_eq_some hc with rfl | ⟨op, isArray, rfl⟩
  · exact namesColumn_self field
  · exact namesColumn_fieldSql field

/-- The cast of a parameter's condition is not the client's. -/
theorem conditionOf_columnType (h : conditionOf U columnTypes allowedFields x = some c) {t : String}
    (ht : c.columnType = some t) : t = "timestamptz" ∨ t ∈ columnTypes.map Prod.snd := by
  have hlookup {field : String} (hl : columnTypes.lookup field = some t) :
      t ∈ columnTypes.map Prod.snd :=
    List.mem_map.mpr ⟨(field, t), Table.mem_of_lookup hl, rfl⟩
  have hcast {field : String} (hl : filterCast columnTypes field = some t) :
      t = "timestamptz" ∨ t ∈ columnTypes.map Prod.snd := by
    unfold filterCast at hl
    split at hl
    · cases hl
      exact .inl rfl
    · exact .inr (hlookup hl)
  obtain ⟨name, operatorStr, field, -, -, -, hc⟩ := conditionOf_eq_some.mp h
  rcases operatorCondition_eq_some hc with rfl | ⟨op, isArray, rfl⟩
  · exact .inr (hlookup ht)
  · exact hcast ht

/-- Every column of a parsed filter is guarded. -/
theorem parseFilters_guarded (h : parseFilters U params columnTypes allowedFields = .ok q) :
    ∀ sql ∈ q.columns, Guarded U allowedFields sql := by
  have hq : Parsed.GuardedColumns U allowedFields { filter := q } := by
    obtain ⟨p, hp, hok⟩ := bind_eq_ok.mp h
    obtain ⟨hs, hf⟩ := parseParams_guarded ⟨by simp, by simp⟩ hp
    rw [foldl_addCondition] at hok
    cases hok
    exact ⟨hs, hf⟩
  intro sql hsql
  rcases List.mem_append.mp hsql with hsql | hsql
  · rcases List.mem_append.mp hsql with hsql | hsql
    · obtain ⟨c, hc, rfl⟩ := List.mem_map.mp hsql
      obtain ⟨x, -, hx⟩ := (mem_conditions_iff h).mp hc
      exact conditionOf_guarded hx
    · obtain ⟨s, hs, rfl⟩ := List.mem_map.mp hsql
      exact hq.sorts s hs
  · exact hq.searchFields sql hsql

end Columns

/-! ## Values -/

/-- What of a parameter's value the text of a WHERE clause shows. -/
inductive TextShape where
  /-- The searched columns. -/
  | columns (value : String)
  /-- Whether there is no term to search for. -/
  | search (empty : Bool)
  /-- How many values a list has. -/
  | list (count : ℕ)
  | nothing
deriving DecidableEq, Repr

/-- The shape of a parameter's value. -/
def textShape (param : String × String) : TextShape :=
  match bracketOf param.1 with
  | some (_, rest) =>
    match FilterOperator.fromStr (String.ofList rest.toList.dropLast) with
    | some op => if op ∈ listOperators then .list (split param.2 ',').length else .nothing
    | none => .nothing
  | none =>
    match toAsciiLowercase param.1 with
    | "searchfields" => .columns param.2
    | "search" => .search (param.2 = "")
    | _ => .nothing

/-- The same key, with a value of the same shape. -/
def SameShape (x y : String × String) : Prop := x.1 = y.1 ∧ textShape x = textShape y

/-- Two conditions that differ at most in what they bind. -/
structure SameText (c d : FilterCondition) : Prop where
  field : c.field = d.field
  operator : c.operator = d.operator
  logical : c.logical = d.logical
  columnType : c.columnType = d.columnType
  slots : c.slots = d.slots
  count : c.getParams.length = d.getParams.length

theorem SameText.buildSql {d : FilterCondition} (h : SameText c d) (k : ℕ) :
    c.buildSqlWithoutPrefix k = d.buildSqlWithoutPrefix k := by
  obtain ⟨field, operator, value, logical, columnType⟩ := c
  obtain ⟨field', operator', value', logical', columnType'⟩ := d
  obtain ⟨rfl, rfl, rfl, rfl, hslots, -⟩ := h
  cases operator <;>
    simp_all [FilterCondition.buildSqlWithoutPrefix, FilterCondition.slots,
      FilterCondition.inPlaceholders_eq]

section Values

variable {U : CharTables} {columnTypes : ColumnTypes} {allowedFields : Option (List String)}
  {params' : List (String × String)} {q' : QueryFilter} (field : String) (before : List KeyColumn)
  {d : FilterCondition} {y : String × String} {p : CursorPayload} {sorts : List SortSpec}

/-- An equality binds one value, whatever was sent. -/
theorem count_equal {s : String} {isArray : Bool} (hop : c.operator = .equal)
    (hv : c.value = .fromString s isArray) : c.slots = 1 ∧ c.getParams.length = 1 := by
  obtain ⟨field, operator, value, logical, columnType⟩ := c
  cases hop
  cases hv
  cases isArray <;> exact ⟨rfl, rfl⟩

theorem SameText.of_equal {s t : String} {isArray isArray' : Bool}
    (hfield : c.field = d.field) (hlogical : c.logical = d.logical)
    (hcast : c.columnType = d.columnType) (hc : c.operator = .equal) (hd : d.operator = .equal)
    (hv : c.value = .fromString s isArray) (hv' : d.value = .fromString t isArray') :
    SameText c d := by
  obtain ⟨hslots, hcount⟩ := count_equal hc hv
  obtain ⟨hslots', hcount'⟩ := count_equal hd hv'
  exact ⟨hfield, hc.trans hd.symm, hlogical, hcast, hslots.trans hslots'.symm,
    hcount.trans hcount'.symm⟩

theorem sameText_equal (value value' : String) (isArray isArray' : Bool) :
    SameText (filterCondition U columnTypes field value .equal isArray)
      (filterCondition U columnTypes field value' .equal isArray') :=
  @SameText.of_equal _ _ (filterValue U columnTypes field value)
    (filterValue U columnTypes field value') isArray isArray' rfl rfl rfl rfl rfl rfl rfl

theorem sameText_or (value value' : String) :
    SameText (orCondition U columnTypes field value) (orCondition U columnTypes field value') :=
  @SameText.of_equal _ _ (filterValue U columnTypes field value)
    (filterValue U columnTypes field value') false false rfl rfl rfl rfl rfl rfl rfl

/-- How many values a list operator binds depends on how many the list has. -/
theorem length_getParams_list {vs : List String} (hv : c.value = .multiple vs)
    (hop : c.operator ∈ listOperators) :
    c.slots = (if isRange c.operator then 2 else vs.length) ∧
      c.getParams.length =
        if isRange c.operator then (if 2 ≤ vs.length then 2 else 0) else vs.length := by
  obtain ⟨field, operator, value, logical, columnType⟩ := c
  cases hv
  simp only [listOperators, List.mem_cons, List.not_mem_nil, or_false] at hop
  rcases hop with rfl | rfl | rfl | rfl
  · exact ⟨rfl, rfl⟩
  · exact ⟨rfl, rfl⟩
  · refine ⟨rfl, ?_⟩
    rcases vs with _ | ⟨lo, _ | ⟨hi, rest⟩⟩ <;> simp [FilterCondition.getParams, isRange]
  · refine ⟨rfl, ?_⟩
    rcases vs with _ | ⟨lo, _ | ⟨hi, rest⟩⟩ <;> simp [FilterCondition.getParams, isRange]

theorem sameText_operator {op : FilterOperator} {value' : String}
    (h : op ∈ listOperators → (split value ',').length = (split value' ',').length) :
    SameText (filterCondition U columnTypes field value op (decide (op ∈ listOperators)))
      (filterCondition U columnTypes field value' op (decide (op ∈ listOperators))) := by
  by_cases hop : op ∈ listOperators
  · have hlist (v : String) :
        (filterCondition U columnTypes field v op (decide (op ∈ listOperators))).value =
          .multiple ((split (filterValue U columnTypes field v) ',').map trim) := by
      simp [filterCondition, FilterValue.fromString, hop]
    obtain ⟨hslots, hcount⟩ := length_getParams_list (hlist value) hop
    obtain ⟨hslots', hcount'⟩ := length_getParams_list (hlist value') hop
    have hlen : ((split (filterValue U columnTypes field value) ',').map trim).length =
        ((split (filterValue U columnTypes field value') ',').map trim).length := by
      rw [List.length_map, List.length_map, length_split_filterValue, length_split_filterValue,
        h hop]
    refine ⟨rfl, rfl, rfl, rfl, ?_, ?_⟩
    · rw [hslots, hslots', hlen]
      rfl
    · rw [hcount, hcount', hlen]
      rfl
  · rw [decide_eq_false hop]
    refine ⟨rfl, rfl, rfl, rfl, ?_, ?_⟩ <;> cases op <;> simp [listOperators] at hop <;>
      simp [filterCondition, FilterValue.fromString, FilterCondition.slots,
        FilterCondition.getParams]

theorem operatorCondition_sameText (hxy : SameShape x y) {name : String}
    {operatorStr : Option String} (hf : filterOf x.1 = some (name, operatorStr)) (field : String) :
    Option.Rel SameText (operatorCondition U columnTypes field x.2 operatorStr)
      (operatorCondition U columnTypes field y.2 operatorStr) := by
  cases operatorStr with
  | none => exact .some (sameText_equal field _ _ _ _)
  | some operatorStr =>
    simp only [operatorCondition]
    split
    · exact .some (sameText_or field _ _)
    · cases hop : FilterOperator.fromStr operatorStr with
      | none => exact .none
      | some op =>
        refine .some (sameText_operator field fun hlist => ?_)
        obtain ⟨-, rest, hb, rfl, -, -⟩ := filterOf_eq_bracket hf
        have hshape := hxy.2
        unfold textShape at hshape
        simp only [← hxy.1, hb, hop, hlist, if_true, TextShape.list.injEq] at hshape
        exact hshape

theorem conditionOf_sameText (hxy : SameShape x y) :
    Option.Rel SameText (conditionOf U columnTypes allowedFields x)
      (conditionOf U columnTypes allowedFields y) := by
  unfold conditionOf
  rw [← hxy.1]
  cases hf : filterOf x.1 with
  | none => exact .none
  | some f =>
    cases hs : sanitizeFieldName U f.1 with
    | none =>
      simp only [Option.bind_some, hs, Option.bind_none]
      exact .none
    | some field =>
      simp only [Option.bind_some, hs]
      split
      · exact operatorCondition_sameText hxy hf field
      · exact .none

/-- The conditions of two requests with the same keys and shapes differ only in what they bind. -/
theorem conditions_sameText (h : parseFilters U params columnTypes allowedFields = .ok q)
    (h' : parseFilters U params' columnTypes allowedFields = .ok q')
    (hall : List.Forall₂ SameShape params params') :
    List.Forall₂ SameText q.conditions q'.conditions := by
  have hconditions : List.Forall₂ SameText
      (params.filterMap (conditionOf U columnTypes allowedFields))
      (params'.filterMap (conditionOf U columnTypes allowedFields)) :=
    List.rel_filterMap (fun x y hxy => conditionOf_sameText hxy) hall
  rw [parseFilters_conditions h, parseFilters_conditions h']
  refine List.rel_append (List.rel_filter (fun c d hcd => ?_) hconditions)
    (List.rel_filter (fun c d hcd => ?_) hconditions)
  · simp only [hcd.logical]
  · simp only [hcd.logical]

/-! ## The search -/

theorem slotOf_eq_search : slotOf x = some .search ↔
    isInternalKey x.1 = false ∧ bracketOf x.1 = none ∧ toAsciiLowercase x.1 = "search" := by
  refine ⟨fun h => ?_, fun ⟨hkey, hb, heq⟩ => ?_⟩
  · obtain ⟨hkey, hb, hplain⟩ := slotOf_eq_some h
    exact ⟨hkey, hb, plainSlot_eq_search.mp hplain⟩
  · simp [slotOf, hkey, hb, plainSlot_eq_search.mpr heq]

theorem slotOf_eq_searchFields : slotOf x = some .searchFields ↔
    isInternalKey x.1 = false ∧ bracketOf x.1 = none ∧ toAsciiLowercase x.1 = "searchfields" := by
  refine ⟨fun h => ?_, fun ⟨hkey, hb, heq⟩ => ?_⟩
  · obtain ⟨hkey, hb, hplain⟩ := slotOf_eq_some h
    exact ⟨hkey, hb, plainSlot_eq_searchFields.mp hplain⟩
  · simp [slotOf, hkey, hb, plainSlot_eq_searchFields.mpr heq]

theorem lastParam_sameShape (hall : List.Forall₂ SameShape params params') {slot : Slot}
    (hslot : ∀ x y, x.1 = y.1 → (slotOf x = some slot ↔ slotOf y = some slot)) :
    Option.Rel SameShape (lastParam slot params) (lastParam slot params') := by
  refine Table.rel_getLast? (List.rel_filter (fun x y hxy => ?_) hall)
  simpa using hslot x y hxy.1

/-- Two requests with the same keys and shapes search the same columns, or both none. -/
theorem search_sameShape (h : parseFilters U params columnTypes allowedFields = .ok q)
    (h' : parseFilters U params' columnTypes allowedFields = .ok q')
    (hall : List.Forall₂ SameShape params params') :
    q.searchFields = q'.searchFields ∧
      Option.Rel (fun s t => s = "" ↔ t = "") q.search q'.search := by
  have hfields := @lastParam_sameShape _ _ hall .searchFields fun x y hxy => by
    rw [slotOf_eq_searchFields, slotOf_eq_searchFields, hxy]
  have hterm := @lastParam_sameShape _ _ hall .search fun x y hxy => by
    rw [slotOf_eq_search, slotOf_eq_search, hxy]
  constructor
  · rcases searchFields_eq h with ⟨hx, hq⟩ | ⟨x, hx, hq⟩ <;>
      rcases searchFields_eq h' with ⟨hy, hq'⟩ | ⟨y, hy, hq'⟩ <;> rw [hx, hy] at hfields
    · rw [hq, hq']
    · cases hfields
    · cases hfields
    · cases hfields with
      | some hxy =>
        obtain ⟨hkey, hb, hlower⟩ := slotOf_eq_searchFields.mp (mem_of_lastParam hx).2
        have hshape := hxy.2
        unfold textShape at hshape
        simp only [← hxy.1, hb, hlower, TextShape.columns.injEq] at hshape
        rw [← hxy.1, ← hshape, hq] at hq'
        exact Except.ok.inj hq'
  · rw [search_eq h, search_eq h']
    cases hx : lastParam .search params with
    | none =>
      rw [hx] at hterm
      cases hy : lastParam .search params' with
      | none => exact .none
      | some y =>
        rw [hy] at hterm
        cases hterm
    | some x =>
      rw [hx] at hterm
      cases hy : lastParam .search params' with
      | none =>
        rw [hy] at hterm
        cases hterm
      | some y =>
        rw [hy] at hterm
        cases hterm with
        | some hxy =>
          obtain ⟨hkey, hb, hlower⟩ := slotOf_eq_search.mp (mem_of_lastParam hx).2
          have hshape := hxy.2
          unfold textShape at hshape
          simp only [← hxy.1, hb, hlower, TextShape.search.injEq] at hshape
          exact .some (by simpa using hshape)

/-! ## The statement -/

/-- Two clauses in the making with the same text and the same numbering. -/
structure SameSql (u v : QueryFilter.UserSql) : Prop where
  user : u.user = v.user
  paramIdx : u.paramIdx = v.paramIdx
  count : u.params.length = v.params.length

theorem SameSql.add {u v : QueryFilter.UserSql} (h : SameSql u v)
    (hcd : SameText c d) : SameSql (u.add c) (v.add d) := by
  refine ⟨?_, ?_, ?_⟩
  · simp only [QueryFilter.UserSql.add, h.user, h.paramIdx, hcd.buildSql, hcd.logical]
  · simp only [QueryFilter.UserSql.add, h.paramIdx, hcd.buildSql]
  · simp only [QueryFilter.UserSql.add, List.length_append, h.count, hcd.count]

theorem SameSql.foldl {cs ds : List FilterCondition} (hall : List.Forall₂ SameText cs ds) :
    ∀ {u v : QueryFilter.UserSql}, SameSql u v →
      SameSql (cs.foldl QueryFilter.UserSql.add u) (ds.foldl QueryFilter.UserSql.add v) := by
  induction hall with
  | nil => exact fun h => h
  | cons hcd _ ih => exact fun h => ih (h.add hcd)

/-- Requests that differ only in what they bind have one clause, with one number of parameters. -/
theorem buildWhereClause_sameText (hc : List.Forall₂ SameText q.conditions q'.conditions)
    (hf : q.searchFields = q'.searchFields)
    (hs : Option.Rel (fun s t => s = "" ↔ t = "") q.search q'.search)
    (hb : q.baseConditions = q'.baseConditions) :
    q.buildWhereClause.1 = q'.buildWhereClause.1 ∧
      q.buildWhereClause.2.length = q'.buildWhereClause.2.length := by
  have hactive : q.activeSearch.isSome = q'.activeSearch.isSome := by
    unfold QueryFilter.activeSearch
    rw [← hf]
    generalize q.search = s, q'.search = t at hs
    cases hs with
    | none => rfl
    | some hst => simp only [ne_eq, hst]; split <;> rfl
  have hsearch : q.searchGroups = q'.searchGroups ∧
      q.searchParams.length = q'.searchParams.length := by
    unfold QueryFilter.searchGroups QueryFilter.searchParams
    rw [← hf]
    generalize q.activeSearch = s, q'.activeSearch = t at hactive
    cases s <;> cases t <;> simp_all
  have huser : SameSql q.userSql q'.userSql := by
    unfold QueryFilter.userSql
    refine SameSql.foldl hc ⟨rfl, ?_, hsearch.2⟩
    simp only [hsearch.2]
  refine ⟨?_, huser.count⟩
  simp only [QueryFilter.buildWhereClause, QueryFilter.groups, QueryFilter.baseGroups, hb, hsearch.1,
    huser.user]

/-- A key column without its value. -/
def KeyColumn.blank (c : KeyColumn) : KeyColumn := { c with value := "" }

theorem keysetTerm_blank (c : KeyColumn) (k : ℕ) :
    keysetTerm (before.map KeyColumn.blank) c.blank k = keysetTerm before c k := by
  have hcompare (x : KeyColumn) (op : FilterOperator) (n : ℕ) :
      x.blank.compare op n = x.compare op n := rfl
  have hstrict : c.blank.strict = c.strict := rfl
  simp only [keysetTerm, List.zipIdx_map, List.map_map, Function.comp_def, Prod.map, hcompare,
    hstrict, id, List.length_map]

theorem keysetTerms_blank (cs : List KeyColumn) (k : ℕ) :
    (keysetTerms (before.map KeyColumn.blank) (cs.map KeyColumn.blank) k).1 =
      (keysetTerms before cs k).1 := by
  induction cs generalizing before k with
  | nil => rfl
  | cons c cs ih =>
    have hrest := ih (before ++ [c]) (k + before.length + 1)
    rw [List.map_append] at hrest
    simp only [List.map_cons, keysetTerms, keysetTerm_blank, List.length_map]
    exact congrArg _ hrest

/-- The text of a keyset predicate shows the columns and directions of a position, not its values. -/
theorem buildKeysetPredicate_text {p' : CursorPayload} (hf : p.f = p'.f) (hd : p.d = p'.d) (k : ℕ)
    (casts : List (Option String)) (backwards : Bool) :
    (buildKeysetPredicate p k casts backwards).1 = (buildKeysetPredicate p' k casts backwards).1 := by
  have hcolumns : (p.keyColumns casts backwards).map KeyColumn.blank =
      (p'.keyColumns casts backwards).map KeyColumn.blank := by
    have htie : (p.tiebreaker backwards).blank = (p'.tiebreaker backwards).blank := rfl
    have hkeys : (p.columns casts backwards).map KeyColumn.blank =
        (p'.columns casts backwards).map KeyColumn.blank := by
      simp only [CursorPayload.columns, List.map_map, Function.comp_def, KeyColumn.blank, hf, hd]
    unfold CursorPayload.keyColumns
    rw [List.map_append, List.map_append, hkeys, hf]
    split
    · rfl
    · exact congrArg (fun c => _ ++ [c]) htie
  simp only [buildKeysetPredicate]
  rw [← keysetTerms_blank [] (p.keyColumns casts backwards), hcolumns, keysetTerms_blank]

theorem decodeCursor_position {J : Json} {text : String}
    (h : decodeCursor J text sorts = .ok p) :
    p.f = sorts.map SortSpec.field ∧ p.d = sorts.map fun s => s.direction.code := by
  unfold decodeCursor at h
  split at h
  · cases h
  · split at h
    · cases h
    · dsimp only at h
      split_ifs at h with hversion hlength hfields hcodes
      cases h
      exact ⟨not_not.mp hfields, not_not.mp hcodes⟩

/-- Requests that differ only in what they bind, and in the positions they continue from, have one
clause. -/
theorem listClause_text {J : Json} {casts : List (Option String)}
    {backwards : Bool} {clause clause' : String × List String}
    (htext : q.buildWhereClause.1 = q'.buildWhereClause.1)
    (hcount : q.buildWhereClause.2.length = q'.buildWhereClause.2.length)
    (hcursor : (if backwards then q.cursorBefore else q.cursorAfter).isSome =
      (if backwards then q'.cursorBefore else q'.cursorAfter).isSome)
    (h : Table.listClause J q sorts casts backwards = .ok clause)
    (h' : Table.listClause J q' sorts casts backwards = .ok clause') : clause.1 = clause'.1 := by
  unfold Table.listClause at h h'
  generalize (if backwards then q.cursorBefore else q.cursorAfter) = cursor,
    (if backwards then q'.cursorBefore else q'.cursorAfter) = cursor' at hcursor h h'
  cases cursor with
  | none =>
    cases cursor' with
    | none =>
      cases h
      cases h'
      exact htext
    | some text => cases hcursor
  | some text =>
    cases cursor' with
    | none => cases hcursor
    | some text' =>
      dsimp only at h h'
      split at h
      · cases h
      · rename_i p hp
        split at h'
        · cases h'
        · rename_i p' hp'
          obtain ⟨hf, hd⟩ := decodeCursor_position hp
          obtain ⟨hf', hd'⟩ := decodeCursor_position hp'
          rw [← Except.ok.inj h, ← Except.ok.inj h', htext, hcount,
            buildKeysetPredicate_text (hf.trans hf'.symm) (hd.trans hd'.symm)]

/-- What a request can do to the text of its statement. -/
structure QueryFilter.TextGuarded (U : CharTables) (columnTypes : ColumnTypes)
    (allowedFields : Option (List String)) (params : List (String × String)) (q : QueryFilter) :
    Prop where
  /-- An allow-list holds each column, or the audit timestamp the column reads. -/
  listed : ∀ allowed, allowedFields = some allowed → ∀ sql ∈ q.columns,
    sql ∈ allowed ∨ ∃ field ∈ allowed, auditMetadataSqlExpr field = some sql
  spelled : ∀ sql ∈ q.columns, Identifier U sql ∨ ∃ field, auditMetadataSqlExpr field = some sql
  cast : ∀ c ∈ q.conditions, ∀ t, c.columnType = some t →
    t = "timestamptz" ∨ t ∈ columnTypes.map Prod.snd
  /-- Other values of the same shapes, and another position to continue from, make the same clause,
  whatever base conditions the repository adds. -/
  bound : ∀ (params' : List (String × String)) (q' : QueryFilter) (base : List String) (J : Json)
    (sorts : List SortSpec) (casts : List (Option String)) (backwards : Bool)
    (clause clause' : String × List String), List.Forall₂ SameShape params params' →
    parseFilters U params' columnTypes allowedFields = .ok q' →
    (if backwards then q.cursorBefore else q.cursorAfter).isSome =
      (if backwards then q'.cursorBefore else q'.cursorAfter).isSome →
    Table.listClause J { q with baseConditions := base } sorts casts backwards = .ok clause →
    Table.listClause J { q' with baseConditions := base } sorts casts backwards = .ok clause' →
    clause.1 = clause'.1

/-- The names a client sends reach the statement as guarded columns, its values as parameters. -/
theorem parseFilters_textGuarded {params : List (String × String)} {q : QueryFilter}
    (h : parseFilters U params columnTypes allowedFields = .ok q) :
    q.TextGuarded U columnTypes allowedFields params where
  listed allowed hallowed sql hsql := by
    subst hallowed
    exact (parseFilters_guarded h sql hsql).listed
  spelled sql hsql := (parseFilters_guarded h sql hsql).identifier
  cast c hc t ht := by
    obtain ⟨x, -, hx⟩ := (mem_conditions_iff h).mp hc
    exact conditionOf_columnType hx ht
  bound params' q' base J sorts casts backwards clause clause' hall h' hcursor hclause hclause' := by
    have hconditions := conditions_sameText h h' hall
    obtain ⟨hfields, hsearch⟩ := search_sameShape h h' hall
    obtain ⟨htext, hcount⟩ := @buildWhereClause_sameText { q with baseConditions := base }
      { q' with baseConditions := base } hconditions hfields hsearch rfl
    exact listClause_text htext hcount hcursor hclause hclause'

/-- A list of names and an audit timestamp. -/
theorem parseFilters_textGuarded_names :
    QueryFilter.TextGuarded asciiTables [] (some ["name", "created_at"])
      [("Name[in]", "a,b"), ("createdAt", "2020")]
      { conditions := [⟨"name", .isIn, .multiple ["a", "b"], .and, none⟩,
          ⟨"(metadata->>'created_at')::timestamptz", .equal, .single "2020", .and,
            some "timestamptz"⟩] } :=
  parseFilters_textGuarded (by decide)

end Values

end Backbone.Orm
