import Backbone.Lib.Table
import Backbone.Orm.ConditionSql

/-!
# What the parser lets through

Whatever a client sends, a condition that comes out of `parseFilters` names a column made of letters,
digits and underscores (or one of the audit timestamps), casts to one of the caller's column types,
and holds its value as a bound parameter. The one thing the client decides about the shape of the
SQL is how many values a list has: a BETWEEN with a single value has two placeholders and no
parameter (`FilterCondition.short`), and `shortRange` says which parameters make one.
-/

namespace Backbone.Orm

open Sql Text

variable {c : FilterCondition} {field : String}

/-! ## Conditions -/

/-- A BETWEEN without two values: it has two placeholders and binds nothing. -/
def FilterCondition.short (c : FilterCondition) : Bool :=
  match c.operator, c.value with
  | .between, .multiple (_ :: _ :: _) => false
  | .notBetween, .multiple (_ :: _ :: _) => false
  | .between, _ => true
  | .notBetween, _ => true
  | _, _ => false

/-- A condition as the parser makes them. -/
structure FilterCondition.Parsed (c : FilterCondition) : Prop where
  wellNamed : c.WellNamed
  /-- Every placeholder has its parameter, but for those of a short BETWEEN. -/
  params : c.getParams.length + (if c.short then 2 else 0) = c.slots

variable {s : String} {isArray : Bool}

/-- A value read as a list exactly for the list operators, or for plain equality. -/
theorem FilterCondition.Parsed.of_fromString (h : c.WellNamed)
    (hv : c.value = .fromString s isArray)
    (hop : (isArray = true ↔ c.operator ∈ listOperators) ∨ c.operator = .equal) : c.Parsed := by
  refine ⟨h, ?_⟩
  have hne : (split s ',').map trim ≠ [] := by simp [split, List.splitOn_ne_nil]
  obtain ⟨v, vs, hvs⟩ := List.exists_cons_of_ne_nil hne
  obtain ⟨field, op, value, logical, ty⟩ := c
  simp only at hv hop
  subst hv
  rcases hop with hop | rfl
  · cases op <;> simp [listOperators] at hop <;> subst hop <;>
      simp [getParams, slots, short, listSlots, FilterValue.fromString, hvs]
    all_goals cases vs <;> simp
  · cases isArray <;> simp [getParams, slots, short, FilterValue.fromString]

/-- A list is short exactly when no comma separates two values. -/
theorem FilterCondition.short_fromString (hv : c.value = .fromString s isArray)
    (hop : (isArray = true ↔ c.operator ∈ listOperators) ∨ c.operator = .equal) :
    c.short ↔ (c.operator = .between ∨ c.operator = .notBetween) ∧ contains s ',' = false := by
  have hlen : contains s ',' = false ↔ ¬ 1 < ((split s ',').map trim).length := by
    rw [List.length_map, one_lt_length_split, Bool.not_eq_true]
  have hne : (split s ',').map trim ≠ [] := by simp [split, List.splitOn_ne_nil]
  obtain ⟨v, vs, hvs⟩ := List.exists_cons_of_ne_nil hne
  rw [hvs] at hlen
  obtain ⟨field, op, value, logical, ty⟩ := c
  simp only at hv hop
  subst hv
  rcases hop with hop | rfl
  · cases op <;> simp [listOperators] at hop <;> subst hop <;>
      simp [short, FilterValue.fromString, hvs, hlen]
    all_goals cases vs <;> simp
  · cases isArray <;> simp [short]

/-! ## Names -/

section Names

variable {U : CharTables} (columnTypes : ColumnTypes)

theorem isWordChar_of_alphanumeric {c : Char} (h : U.isAlphanumeric c) : isWordChar c := by
  unfold isWordChar
  by_cases hc : c.toNat < 128
  · rw [U.alphanumeric_ascii c hc] at h
    simp [h]
  · simp [not_lt.mp hc]

theorem isWordChar_lowerFirst {c : Char} (h : U.isAlphanumeric c || c == '_') :
    isWordChar (U.lowerFirst c) := by
  rcases U.lowerFirst_eq_or c with hc | hc
  · rw [hc]
    rcases Bool.or_eq_true_iff.mp h with h | h
    · exact isWordChar_of_alphanumeric h
    · rw [beq_iff_eq.mp h]
      decide
  · exact isWordChar_of_alphanumeric hc

variable {cs : List Char}

/-- Folding adds underscores to the folded characters. -/
theorem forall_mem_snakeFrom (P : Char → Prop) (hunderscore : P '_')
    (h : ∀ c ∈ cs, P (U.lowerFirst c)) (first : Bool) : ∀ d ∈ snakeFrom U first cs, P d := by
  induction cs generalizing first with
  | nil => simp [snakeFrom]
  | cons c cs ih =>
    intro d hd
    rw [snakeFrom, List.mem_append] at hd
    rcases hd with hd | hd
    · split at hd
      · rwa [List.mem_singleton.mp hd]
      · cases hd
    · rcases List.mem_cons.mp hd with rfl | hd
      · exact h c List.mem_cons_self
      · exact ih (fun x hx => h x (List.mem_cons_of_mem _ hx)) false d hd

variable {name : String}

/-- A sanitized name is a column. -/
theorem columnText_of_sanitize (h : sanitizeFieldName U field = some name) : ColumnText name := by
  unfold sanitizeFieldName at h
  split_ifs at h with hempty _ hall _
  cases h
  have hall : ∀ c ∈ field.toList, U.isAlphanumeric c || c == '_' := by
    intro c hc
    simp only [Bool.not_eq_true', Bool.not_eq_false] at hall
    exact List.all_eq_true.mp hall c hc
  refine columnText_of_word ?_ ?_
  · have hne : field.toList ≠ [] := by simpa using hempty
    obtain ⟨c, cs, hcs⟩ := List.exists_cons_of_ne_nil hne
    simp [toSnakeCase, hcs, snakeFrom]
  · simpa [toSnakeCase] using
      forall_mem_snakeFrom (isWordChar ·) rfl (fun c hc => isWordChar_lowerFirst (hall c hc)) true

theorem fieldOf_ok {parameter : String} (h : fieldOf U name parameter = .ok field) :
    sanitizeFieldName U name = some field := by
  unfold fieldOf at h
  split at h
  · cases h
    assumption
  · cases h

/-- The audit timestamps are read from the `metadata` column, which is a column too. -/
theorem columnText_audit (h : field ∈ auditMetadataFields) :
    ColumnText ("(metadata->>'" ++ field ++ "')::timestamptz") := by
  have hcol (s : String) : Column (.opening .paren ::
      ([.word "metadata".toList, .sym "->>".toList, .str s.toList] ++ [.closing .paren]) ++
      [.sym "::".toList, .word "timestamptz".toList]) :=
    .expr rfl (by simp) (by decide)
  simp only [auditMetadataFields, List.mem_cons, List.not_mem_nil, or_false] at h
  rcases h with rfl | rfl | rfl
  · exact .of_lexes rfl (hcol "created_at") rfl
  · exact .of_lexes rfl (hcol "updated_at") rfl
  · exact .of_lexes rfl (hcol "deleted_at") rfl

theorem columnText_fieldSql (h : ColumnText field) : ColumnText (fieldSql field) := by
  unfold fieldSql auditMetadataSqlExpr
  split
  · exact columnText_audit ‹_›
  · exact h

theorem typeName_timestamptz : TypeName "timestamptz" where
  lexes := rfl
  plain := by decide
  holes := rfl
  head := ⟨_, _, rfl, by decide⟩

/-! ## Values -/

theorem comma_mem_of_snakeFrom {first : Bool} (h : ',' ∈ snakeFrom U first cs) : ',' ∈ cs := by
  induction cs generalizing first with
  | nil => cases h
  | cons c cs ih =>
    rw [snakeFrom, List.mem_append] at h
    rcases h with h | h
    · split at h
      · exact absurd (List.mem_singleton.mp h) (by decide)
      · cases h
    · rcases List.mem_cons.mp h with h | h
      · rw [U.eq_of_lowerFirst_eq (by decide) (by decide) h.symm]
        exact List.mem_cons_self
      · exact List.mem_cons_of_mem _ (ih h)

/-- Normalizing an enum value normalizes each of its values. -/
theorem split_normalizeEnumValue (value : String) :
    split (normalizeEnumValue U value) ',' =
      (split value ',').map fun v => toSnakeCase U (if contains value ',' then trim v else v) := by
  unfold normalizeEnumValue
  split
  · refine split_join (by simp [split, List.splitOn_ne_nil]) fun p hp => ?_
    obtain ⟨v, hv, rfl⟩ := List.mem_map.mp hp
    intro hmem
    rw [toSnakeCase, String.toList_ofList] at hmem
    exact not_mem_of_mem_split hv (mem_of_mem_trim (comma_mem_of_snakeFrom hmem))
  · rename_i hcomma
    rw [Bool.not_eq_true] at hcomma
    have hsnake : contains (toSnakeCase U value) ',' = false := by
      rw [← Bool.not_eq_true]
      intro h
      have hmem : ',' ∈ snakeFrom U true value.toList := by simpa [contains, toSnakeCase] using h
      have : contains value ',' := by simpa [contains] using comma_mem_of_snakeFrom hmem
      rw [hcomma] at this
      cases this
    rw [split_of_not_contains hsnake, split_of_not_contains hcomma]
    rfl

/-- Normalizing an enum value keeps the number of values. -/
theorem length_split_filterValue (field value : String) :
    (split (filterValue U columnTypes field value) ',').length = (split value ',').length := by
  unfold filterValue
  split
  · split
    · rw [split_normalizeEnumValue, List.length_map]
    · rfl
  · rfl

theorem contains_filterValue (field value : String) :
    contains (filterValue U columnTypes field value) ',' = contains value ',' := by
  rw [Bool.eq_iff_iff, ← one_lt_length_split, ← one_lt_length_split, length_split_filterValue]

end Names

/-! ## The loop -/

/-- The conditions gathered so far. -/
def Parsed.conditions (p : Parsed) : List FilterCondition := p.filter.conditions ++ p.orConditions

/-- What the loop keeps: conditions, searched columns and sorts that SQL can hold. -/
structure Parsed.WellRead (p : Parsed) : Prop where
  conditions : ∀ c ∈ p.conditions, c.Parsed
  searchFields : ∀ f ∈ p.filter.searchFields, ColumnText f
  sorts : ∀ s ∈ p.filter.sorts, ColumnText s.field

/-- From `p` to `p'` the condition `new` was gathered, if any; `short` says whether it is a BETWEEN
without two values. -/
structure Adds (short : Bool) (new : Option FilterCondition) (p p' : Parsed) : Prop where
  mem : ∀ c, c ∈ p'.conditions ↔ c ∈ p.conditions ∨ c ∈ new
  parsed : ∀ c ∈ new, c.Parsed
  short : short ↔ ∃ c ∈ new, c.short
  base : p'.filter.baseConditions = p.filter.baseConditions
  search : (∀ f ∈ p.filter.searchFields, ColumnText f) → ∀ f ∈ p'.filter.searchFields, ColumnText f
  sorts : (∀ s ∈ p.filter.sorts, ColumnText s.field) → ∀ s ∈ p'.filter.sorts, ColumnText s.field

variable {p : Parsed}

/-- Nothing was gathered. -/
theorem Adds.nothing {p' : Parsed} (hc : p'.filter.conditions = p.filter.conditions)
    (ho : p'.orConditions = p.orConditions)
    (hb : p'.filter.baseConditions = p.filter.baseConditions)
    (hs : p'.filter.searchFields = p.filter.searchFields)
    (ho' : p'.filter.sorts = p.filter.sorts) : Adds false none p p' := by
  refine ⟨fun c => ?_, by simp, by simp, hb, fun h => hs ▸ h, fun h => ho' ▸ h⟩
  simp [Parsed.conditions, hc, ho]

theorem Adds.trans {q r : Parsed} (h : Adds false none p q) (h' : Adds false none q r) :
    Adds false none p r := by
  refine ⟨fun c => ?_, by simp, by simp, h'.base.trans h.base, fun hs => h'.search (h.search hs),
    fun hs => h'.sorts (h.sorts hs)⟩
  rw [h'.mem, h.mem]
  simp

section Loop

variable {U : CharTables} {columnTypes : ColumnTypes} {allowedFields : Option (List String)}
  {p p' : Parsed} {key value : String} {operatorStr : String}

theorem Adds.addSort {s : SortSpec} (h : ColumnText s.field) :
    Adds false none p { p with filter := p.filter.addSort s } := by
  refine ⟨by simp [Parsed.conditions, QueryFilter.addSort], by simp, by simp, rfl, fun h => h,
    fun hs => ?_⟩
  simpa [QueryFilter.addSort, or_imp, forall_and] using ⟨hs, h⟩

theorem Adds.sortBy (field : String) {sql : String} (h : ColumnText sql)
    (direction : SortDirection) :
    Adds false none p (p.sortBy allowedFields field sql direction) := by
  unfold Parsed.sortBy
  split
  · exact .addSort h
  · exact .nothing rfl rfl rfl rfl rfl

/-- A sort by a field of the client's. -/
theorem Adds.sortField {name parameter : String} {direction : SortDirection}
    (h : (fieldOf U name parameter >>= fun sanitized =>
      .ok (p.sortBy allowedFields sanitized (fieldSql sanitized) direction)) = .ok p') :
    Adds false none p p' := by
  obtain ⟨f, hf, hok⟩ := bind_eq_ok.mp h
  cases hok
  exact .sortBy _ (columnText_fieldSql (columnText_of_sanitize (fieldOf_ok hf))) _

theorem sortPart_adds {part : String} (h : sortPart U key allowedFields p part = .ok p') :
    Adds false none p p' := by
  simp only [sortPart] at h
  split at h
  · cases h
    exact .nothing rfl rfl rfl rfl rfl
  · exact .sortField h

theorem sortSingle_adds (h : sortSingle U key value allowedFields p = .ok p') :
    Adds false none p p' := by
  simp only [sortSingle] at h
  split at h
  · cases h
    exact .nothing rfl rfl rfl rfl rfl
  · exact .sortField h

theorem sortParts_adds {parts : List String}
    (h : parts.foldlM (sortPart U key allowedFields) p = .ok p') : Adds false none p p' := by
  induction parts generalizing p with
  | nil =>
    cases h
    exact .nothing rfl rfl rfl rfl rfl
  | cons part parts ih =>
    rw [List.foldlM_cons] at h
    obtain ⟨q, hq, hrest⟩ := bind_eq_ok.mp h
    exact (sortPart_adds hq).trans (ih hrest)

theorem searchColumns_ok {columns : List String}
    (h : searchColumns U key value allowedFields = .ok columns) : ∀ f ∈ columns, ColumnText f := by
  obtain ⟨fields, hfields, hok⟩ := bind_eq_ok.mp h
  cases hok
  intro f hf
  obtain ⟨s, -, hs⟩ := Table.exists_of_mem_right (mapM_eq_ok.mp hfields) (List.mem_of_mem_filter hf)
  exact columnText_of_sanitize (fieldOf_ok hs)

/-- An operator that takes a range. -/
def isRange (op : FilterOperator) : Bool := op = .between || op = .notBetween

variable (htypes : ∀ t ∈ columnTypes, TypeName t.2) {short : Bool} {params : List (String × String)}
include htypes

variable {t : String}

theorem typeName_of_lookup (h : columnTypes.lookup field = some t) : TypeName t := by
  exact htypes (field, t) (Table.mem_of_lookup h)

theorem typeName_filterCast (h : filterCast columnTypes field = some t) : TypeName t := by
  unfold filterCast at h
  split at h
  · cases h
    exact typeName_timestamptz
  · exact typeName_of_lookup htypes h

variable {op : FilterOperator} {isArray : Bool}

/-- The condition of a filter on a sanitized field. -/
theorem parsed_filterCondition (hfield : ColumnText field) (value : String)
    (hop : op ≠ .or) (hlist : (isArray = true ↔ op ∈ listOperators) ∨ op = .equal) :
    (filterCondition U columnTypes field value op isArray).Parsed := by
  refine .of_fromString ⟨columnText_fieldSql hfield, fun t ht => ?_, hop⟩ rfl hlist
  exact typeName_filterCast htypes ht

omit htypes in
theorem short_filterCondition (hlist : (isArray = true ↔ op ∈ listOperators) ∨ op = .equal) :
    (filterCondition U columnTypes field value op isArray).short ↔
      isRange op ∧ contains value ',' = false := by
  rw [FilterCondition.short_fromString rfl hlist, contains_filterValue]
  simp [isRange, filterCondition]

/-- The condition of an OR filter. -/
theorem parsed_orCondition (hfield : ColumnText field) (value : String) :
    (orCondition U columnTypes field value).Parsed := by
  have hv : (orCondition U columnTypes field value).value =
      .fromString (filterValue U columnTypes field value) false := rfl
  refine .of_fromString ⟨hfield, fun t ht => ?_, by simp [orCondition]⟩ hv (.inr rfl)
  exact typeName_of_lookup htypes ht

omit htypes in
theorem Adds.condition (hc : c.Parsed) (hshort : short ↔ c.short) :
    Adds short (some c) p { p with filter := p.filter.addCondition c } := by
  refine ⟨fun d => ?_, fun d hd => by cases hd; exact hc, by simpa using hshort, rfl, fun h => h,
    fun h => h⟩
  simp only [Parsed.conditions, QueryFilter.addCondition, List.mem_append, List.mem_singleton,
    Option.mem_some_iff]
  tauto

omit htypes in
theorem Adds.orCondition (hc : c.Parsed) (hshort : short ↔ c.short) :
    Adds short (some c) p { p with orConditions := p.orConditions ++ [c] } := by
  refine ⟨fun d => ?_, fun d hd => by cases hd; exact hc, by simpa using hshort, rfl, fun h => h,
    fun h => h⟩
  simp only [Parsed.conditions, List.mem_append, List.mem_singleton, Option.mem_some_iff]
  tauto

/-- Does a bracket's operator ask for a range? -/
def asksRange (operatorStr : String) : Bool := (FilterOperator.fromStr operatorStr).any isRange

theorem parseOperator_adds (hfield : ColumnText field)
    (h : parseOperator U columnTypes key value field operatorStr p = .ok p') :
    ∃ new, Adds (asksRange operatorStr && !contains value ',') new p p' := by
  unfold parseOperator at h
  split at h
  case h_1 hs =>
    cases h
    have hno : asksRange operatorStr = false := by simp [asksRange, FilterOperator.fromStr, hs]
    rw [hno]
    exact ⟨none, .addSort (columnText_fieldSql hfield)⟩
  case h_2 hs | h_3 hs =>
    cases h
    refine ⟨_, .orCondition (parsed_orCondition htypes hfield value) ?_⟩
    simp [asksRange, FilterOperator.fromStr, hs, isRange, FilterCondition.short, Orm.orCondition]
  case h_4 =>
    split at h
    · rename_i op hop
      cases h
      have hlist : (decide (op ∈ listOperators) = true ↔ op ∈ listOperators) ∨ op = .equal :=
        .inl decide_eq_true_iff
      have hne : op ≠ .or := by
        rintro rfl
        unfold FilterOperator.fromStr at hop
        split at hop <;> simp_all
      refine ⟨_, .condition (parsed_filterCondition htypes hfield value hne hlist) ?_⟩
      rw [short_filterCondition hlist]
      simp [asksRange, hop]
    · cases h

theorem parseEquality_adds (h : parseEquality U columnTypes allowedFields key value p = .ok p') :
    ∃ new, Adds false new p p' := by
  obtain ⟨field, hfield, hok⟩ := bind_eq_ok.mp h
  split at hok
  · cases hok
    exact ⟨none, .nothing rfl rfl rfl rfl rfl⟩
  · cases hok
    refine ⟨_, .condition (parsed_filterCondition htypes (columnText_of_sanitize
      (fieldOf_ok hfield)) value (by simp) (.inr rfl)) ?_⟩
    rw [short_filterCondition (.inr rfl)]
    simp [isRange]

/-- A field that sorts rather than filters. -/
def isSortKey (field : String) : Bool :=
  eqIgnoreAsciiCase field "orderby" || eqIgnoreAsciiCase field "sort"

omit htypes in
/-- A key with a bracket asks for nothing when its field is not allowed, for a sort when its field is
a word for sorting, and for a condition otherwise. -/
theorem parseBracket_cases
    (h : parseBracket U columnTypes allowedFields key value field operatorStr p = .ok p') :
    ∃ name, fieldOf U field key = .ok name ∧
      (allows allowedFields name = false ∧ p' = p ∨
        allows allowedFields name = true ∧ isSortKey field = true ∧
          (∃ sortField, fieldOf U operatorStr key = .ok sortField ∧
            p' = p.sortBy allowedFields sortField sortField
              (if startsWith (trim value) "-" || eqIgnoreAsciiCase (trim value) "desc" then .desc
                else .asc)) ∨
        allows allowedFields name = true ∧ isSortKey field = false ∧
          parseOperator U columnTypes key value name operatorStr p = .ok p') := by
  obtain ⟨name, hname, hok⟩ := bind_eq_ok.mp h
  refine ⟨name, hname, ?_⟩
  split at hok
  · rename_i hallow
    exact .inl ⟨by simpa using hallow, (Except.ok.inj hok).symm⟩
  · rename_i hallow
    have hallow : allows allowedFields name = true := by simpa using hallow
    split at hok
    · rename_i hsort
      obtain ⟨sortField, hsf, hok⟩ := bind_eq_ok.mp hok
      exact .inr (.inl ⟨hallow, hsort, sortField, hsf, (Except.ok.inj hok).symm⟩)
    · rename_i hsort
      exact .inr (.inr ⟨hallow, Bool.not_eq_true _ ▸ hsort, hok⟩)

/-- Does the request filter on the field? -/
def filtersOn (U : CharTables) (allowedFields : Option (List String)) (field : String) : Bool :=
  (sanitizeFieldName U field).any (allows allowedFields) && !isSortKey field

theorem parseBracket_adds
    (h : parseBracket U columnTypes allowedFields key value field operatorStr p = .ok p') :
    ∃ new, Adds (filtersOn U allowedFields field && asksRange operatorStr && !contains value ',')
      new p p' := by
  obtain ⟨name, hname, hcases⟩ := parseBracket_cases h
  have hany : (sanitizeFieldName U field).any (allows allowedFields) =
      allows allowedFields name := by
    rw [fieldOf_ok hname]
    rfl
  rcases hcases with ⟨hallow, rfl⟩ | ⟨-, hsort, sortField, hsf, rfl⟩ | ⟨hallow, hsort, hok⟩
  · simp only [filtersOn, hany, hallow, Bool.false_and]
    exact ⟨none, .nothing rfl rfl rfl rfl rfl⟩
  · simp only [filtersOn, hsort, Bool.not_true, Bool.and_false, Bool.false_and]
    exact ⟨none, .sortBy _ (columnText_of_sanitize (fieldOf_ok hsf)) _⟩
  · simp only [filtersOn, hany, hallow, hsort, Bool.not_false, Bool.and_true, Bool.true_and]
    exact parseOperator_adds htypes (columnText_of_sanitize (fieldOf_ok hname)) hok

theorem parsePlain_adds (h : parsePlain U columnTypes allowedFields key value p = .ok p') :
    ∃ new, Adds false new p p' := by
  unfold parsePlain at h
  split at h
  case h_3 | h_11 | h_12 | h_13 | h_14 =>
    cases h
    exact ⟨none, .nothing rfl rfl rfl rfl rfl⟩
  case h_1 | h_2 =>
    split at h
    · exact ⟨none, sortParts_adds h⟩
    · exact ⟨none, sortSingle_adds h⟩
  case h_4 =>
    obtain ⟨columns, hcolumns, hok⟩ := bind_eq_ok.mp h
    cases hok
    refine ⟨none, fun c => ?_, by simp, by simp, rfl, fun _ => searchColumns_ok hcolumns,
      fun h => h⟩
    simp [Parsed.conditions]
  case h_15 =>
    split at h
    · cases h
      exact ⟨none, .nothing rfl rfl rfl rfl rfl⟩
    · exact parseEquality_adds htypes h
  all_goals
    split at h
    · cases h
      exact ⟨none, .nothing rfl rfl rfl rfl rfl⟩
    · obtain ⟨n, -, hok⟩ := bind_eq_ok.mp h
      cases hok
      exact ⟨none, .nothing rfl rfl rfl rfl rfl⟩

/-- A parameter that asks for a range and gives no two values. -/
def shortRange (U : CharTables) (allowedFields : Option (List String)) (param : String × String) :
    Bool :=
  !isInternalKey param.1 &&
    match bracketOf param.1 with
    | some (field, rest) =>
      filtersOn U allowedFields field && asksRange (String.ofList rest.toList.dropLast) &&
        !contains param.2 ','
    | none => false

theorem parseParam_adds {param : String × String}
    (h : parseParam U columnTypes allowedFields p param = .ok p') :
    ∃ new, Adds (shortRange U allowedFields param) new p p' := by
  simp only [parseParam] at h
  unfold shortRange
  split at h
  · rename_i hkey
    cases h
    simp only [hkey, Bool.not_true, Bool.false_and]
    exact ⟨none, .nothing rfl rfl rfl rfl rfl⟩
  · rename_i hkey
    rw [Bool.not_eq_true] at hkey
    simp only [hkey, Bool.not_false, Bool.true_and]
    cases hb : bracketOf param.1 with
    | some b =>
      simp only [hb] at h
      split at h
      · exact parseBracket_adds htypes h
      · cases h
    | none =>
      simp only [hb] at h
      exact parsePlain_adds htypes h

omit htypes in
theorem Adds.wellRead {new : Option FilterCondition} (h : Adds short new p p')
    (hp : p.WellRead) : p'.WellRead where
  conditions c hc := by
    rcases (h.mem c).mp hc with hc | hc
    · exact hp.conditions c hc
    · exact h.parsed c hc
  searchFields := h.search hp.searchFields
  sorts := h.sorts hp.sorts

/-- The loop over the parameters. -/
theorem parseParams_adds
    (h : params.foldlM (parseParam U columnTypes allowedFields) p = .ok p') (hp : p.WellRead) :
    p'.WellRead ∧ p'.filter.baseConditions = p.filter.baseConditions ∧
      ((∃ c ∈ p'.conditions, c.short) ↔
        (∃ c ∈ p.conditions, c.short) ∨ ∃ x ∈ params, shortRange U allowedFields x) := by
  induction params generalizing p with
  | nil =>
    cases h
    exact ⟨hp, rfl, by simp⟩
  | cons x params ih =>
    rw [List.foldlM_cons] at h
    obtain ⟨q, hq, hrest⟩ := bind_eq_ok.mp h
    obtain ⟨new, hnew⟩ := parseParam_adds htypes hq
    obtain ⟨hp', hb', hshort⟩ := ih hrest (hnew.wellRead hp)
    refine ⟨hp', hb'.trans hnew.base, ?_⟩
    have hone : (∃ c ∈ q.conditions, c.short) ↔
        (∃ c ∈ p.conditions, c.short) ∨ shortRange U allowedFields x := by
      simp only [hnew.mem, or_and_right, exists_or, hnew.short]
    rw [hshort, hone, or_assoc]
    simp only [List.mem_cons, or_and_right, exists_or, exists_eq_left]

omit htypes in
/-- The OR conditions go behind the others. -/
theorem foldl_addCondition (cs : List FilterCondition) (q : QueryFilter) :
    cs.foldl QueryFilter.addCondition q = { q with conditions := q.conditions ++ cs } := by
  induction cs generalizing q with
  | nil => simp
  | cons c cs ih => simp [ih, QueryFilter.addCondition]

/-- What the parser makes of any parameters. -/
theorem parseFilters_ok {q : QueryFilter}
    (h : parseFilters U params columnTypes allowedFields = .ok q) :
    (∀ c ∈ q.conditions, c.Parsed) ∧ (∀ f ∈ q.searchFields, ColumnText f) ∧
      (∀ s ∈ q.sorts, ColumnText s.field) ∧ q.baseConditions = [] ∧
      ((∃ c ∈ q.conditions, c.short) ↔ ∃ x ∈ params, shortRange U allowedFields x) := by
  obtain ⟨p, hp, hok⟩ := bind_eq_ok.mp h
  obtain ⟨hread, hbase, hshort⟩ := parseParams_adds htypes hp
    ⟨by simp [Parsed.conditions], by simp, by simp⟩
  rw [foldl_addCondition] at hok
  cases hok
  refine ⟨hread.conditions, hread.searchFields, hread.sorts, hbase, hshort.trans ?_⟩
  simp [Parsed.conditions]

end Loop

end Backbone.Orm
