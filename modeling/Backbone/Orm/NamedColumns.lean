import Backbone.Orm.ParsedFilter

/-!
# The columns a parsed filter names

`readNames` reads off the parameters of a request the names the parser takes for columns, in the
parser's own grammar. `parseFilters_columns` ties the reading to the parser, both ways: a condition,
sort or search field of the filter is one of those names folded to snake case, and without an
allow-list each of those names is in the filter.

Reference: `backbone-orm/src/filter/parser.rs`.
-/

namespace Backbone.Orm

open Text

variable {field name : String}

/-! ## The names a request reads -/

/-- The names of an `orderby` value. -/
def sortNames (value : String) : List String :=
  if contains value ',' then
    (((split value ',').map trim).filter (· ≠ "")).map (trimStartMatches · '-')
  else
    let field := trimStartMatches (sortSuffix value).1 '-'
    if trim field = "" then [] else [field]

/-- The names of a `searchfields` value. -/
def searchNames (value : String) : List String := ((split value ',').map trim).filter (· ≠ "")

/-- The keys, in lower case, that ask for something other than a filter or a sort. -/
def consumedKeys : List String :=
  ["search", "searchfields", "limit", "pagesize", "perpage", "per_page", "offset", "page", "after",
    "before", "estimate", "estimate_total"]

/-- The names a parameter filters or sorts on. -/
def paramNames (param : String × String) : List String :=
  if isInternalKey param.1 then []
  else
    match bracketOf param.1 with
    | some (field, rest) =>
      -- The parser refuses a bracket the key does not close.
      if !endsWith param.1 ']' then []
      else if isSortKey field then [String.ofList rest.toList.dropLast]
      else [field]
    | none =>
      if toAsciiLowercase param.1 ∈ ["orderby", "sort"] then sortNames param.2
      else if toAsciiLowercase param.1 ∈ consumedKeys ∨ param.1 ∈ ["fields", "include", "with"] then
        []
      else [param.1]

/-- The names a parameter sets as the search fields, if it sets them. -/
def searchOf (param : String × String) : Option (List String) :=
  if isInternalKey param.1 || (bracketOf param.1).isSome then none
  else if toAsciiLowercase param.1 = "searchfields" then some (searchNames param.2) else none

/-- The search fields of a request: the last parameter that sets them. -/
def lastSearch (names : List String) (params : List (String × String)) : List String :=
  params.foldl (fun names param => (searchOf param).getD names) names

/-- The names of a request the parser takes for columns. -/
def readNames (params : List (String × String)) : List String :=
  params.flatMap paramNames ++ lastSearch [] params

/-- The columns a filter's conditions, sorts and search fields name, as SQL writes them. -/
def QueryFilter.columns (q : QueryFilter) : List String :=
  q.conditions.map (·.field) ++ q.sorts.map (·.field) ++ q.searchFields

/-- The SQL of a field names a column: by its name, or by the expression an audit timestamp is read
with. -/
def NamesColumn (column sql : String) : Prop := sql = column ∨ sql = fieldSql column

/-! ## Spelling -/

section Spelling

variable (U : CharTables)

/-- A name the sanitizer lets through is spelled as the SQL of its field. -/
def Spells (name sql : String) : Prop :=
  ∃ field, sanitizeFieldName U name = some field ∧ NamesColumn field sql

/-- The columns are the names' spellings; an allow-list may leave some out. -/
structure Spelled (allowedFields : Option (List String)) (names columns : List String) :
    Prop where
  of_column : ∀ sql ∈ columns, ∃ name ∈ names, Spells U name sql
  of_name : allowedFields = none → ∀ name ∈ names, ∃ sql ∈ columns, Spells U name sql

variable {U} {allowedFields : Option (List String)} {column : String} {sql : String}

theorem eq_toSnakeCase_of_sanitize (h : sanitizeFieldName U name = some field) :
    field = toSnakeCase U name := by
  unfold sanitizeFieldName at h
  split_ifs at h
  cases h
  rfl

/-- A sanitized name is made of letters, digits and underscores. -/
theorem word_of_sanitize (h : sanitizeFieldName U name = some field) :
    name ≠ "" ∧ ∀ c ∈ name.toList, U.isAlphanumeric c || c == '_' := by
  unfold sanitizeFieldName at h
  split_ifs at h with hempty _ hall _
  refine ⟨hempty, fun c hc => ?_⟩
  simp only [Bool.not_eq_true', Bool.not_eq_false] at hall
  exact List.all_eq_true.mp hall c hc

theorem snakeFrom_ascii (hU : AsciiCase U) {cs : List Char} (hcs : ∀ c ∈ cs, c.toNat < 128)
    (first : Bool) : snakeFrom U first cs = snakeFrom asciiTables first cs := by
  induction cs generalizing first with
  | nil => rfl
  | cons c cs ih =>
    obtain ⟨hlower, hupper⟩ := hU c (hcs c List.mem_cons_self)
    have hfirst : U.lowerFirst c = asciiTables.lowerFirst c := by
      simp [CharTables.lowerFirst, hlower, asciiTables]
    rw [snakeFrom, snakeFrom, ih fun d hd => hcs d (List.mem_cons_of_mem _ hd), hupper, hfirst]
    rfl

/-- An ASCII name is sanitized as under the ASCII tables. -/
theorem sanitizeFieldName_ascii (hU : AsciiCase U) {s : String} (hs : ∀ c ∈ s.toList, c.toNat < 128) :
    sanitizeFieldName U s = sanitizeFieldName asciiTables s := by
  have halnum : (s.toList.all fun c => U.isAlphanumeric c || c == '_') =
      s.toList.all fun c => asciiTables.isAlphanumeric c || c == '_' := by
    rw [Bool.eq_iff_iff, List.all_eq_true, List.all_eq_true]
    refine forall₂_congr fun c hc => ?_
    rw [U.alphanumeric_ascii c (hs c hc)]
    rfl
  unfold sanitizeFieldName
  rw [halnum, CharTables.lower_ascii hU hs, toSnakeCase, toSnakeCase, snakeFrom_ascii hU hs]

theorem fieldSql_of_not_audit (h : field ∉ auditMetadataFields) : fieldSql field = field := by
  simp [fieldSql, auditMetadataSqlExpr, h]

/-- The SQL of an audit timestamp opens a bracket. -/
theorem open_mem_fieldSql (h : field ∈ auditMetadataFields) : '(' ∈ (fieldSql field).toList := by
  simp [fieldSql, auditMetadataSqlExpr, h]

theorem fieldSql_injective_audit (hf : field ∈ auditMetadataFields)
    (hc : column ∈ auditMetadataFields) (h : fieldSql field = fieldSql column) :
    field = column := by
  simp only [auditMetadataFields, List.mem_cons, List.not_mem_nil, or_false] at hf hc
  rcases hf with rfl | rfl | rfl <;> rcases hc with rfl | rfl | rfl <;>
    first | rfl | exact absurd h (by decide)

/-- Names without brackets are told apart in SQL. -/
theorem namesColumn_iff {field : String} (hf : '(' ∉ field.toList)
    (hc : '(' ∉ column.toList) (h : NamesColumn field sql) :
    NamesColumn column sql ↔ field = column := by
  refine ⟨fun h' => ?_, fun heq => heq ▸ h⟩
  have hside {a b : String} (ha : '(' ∉ a.toList) (hab : a = fieldSql b) : a = b := by
    by_cases hb : b ∈ auditMetadataFields
    · exact absurd (hab ▸ open_mem_fieldSql hb) ha
    · rw [hab, fieldSql_of_not_audit hb]
  rcases h with rfl | rfl <;> rcases h' with h' | h'
  · exact h'
  · exact hside hf h'
  · exact (hside hc h'.symm).symm
  · by_cases ha : field ∈ auditMetadataFields
    · by_cases hb : column ∈ auditMetadataFields
      · exact fieldSql_injective_audit ha hb h'
      · rw [fieldSql_of_not_audit hb] at h'
        exact (hside hc h'.symm).symm
    · rw [fieldSql_of_not_audit ha] at h'
      exact hside hf h'

/-- A name that spells the SQL of a column folds to it. -/
theorem Spells.namesColumn_iff {name : String} (h : Spells U name sql)
    (hc : '(' ∉ column.toList) : NamesColumn column sql ↔ toSnakeCase U name = column := by
  obtain ⟨field, hfield, hsql⟩ := h
  have hword := (word_of_sanitize hfield).2
  have heq := eq_toSnakeCase_of_sanitize hfield
  have hf : '(' ∉ field.toList := by
    intro hmem
    rw [heq, toSnakeCase, String.toList_ofList] at hmem
    have hfold := forall_mem_snakeFrom (Sql.isWordChar ·) rfl
      (fun c hc => isWordChar_lowerFirst (hword c hc)) true _ hmem
    exact absurd hfold (by decide)
  rw [Orm.namesColumn_iff hf hc hsql, heq]

namespace Spelled

theorem nil : Spelled U allowedFields [] [] := ⟨by simp, by simp⟩

variable {columns columns' : List String}

theorem append {names names' : List String}
    (h : Spelled U allowedFields names columns) (h' : Spelled U allowedFields names' columns') :
    Spelled U allowedFields (names ++ names') (columns ++ columns') := by
  refine ⟨fun sql hsql => ?_, fun hallow name hname => ?_⟩
  · rcases List.mem_append.mp hsql with hsql | hsql
    · obtain ⟨name, hname, hs⟩ := h.of_column sql hsql
      exact ⟨name, List.mem_append_left _ hname, hs⟩
    · obtain ⟨name, hname, hs⟩ := h'.of_column sql hsql
      exact ⟨name, List.mem_append_right _ hname, hs⟩
  · rcases List.mem_append.mp hname with hname | hname
    · obtain ⟨sql, hsql, hs⟩ := h.of_name hallow name hname
      exact ⟨sql, List.mem_append_left _ hsql, hs⟩
    · obtain ⟨sql, hsql, hs⟩ := h'.of_name hallow name hname
      exact ⟨sql, List.mem_append_right _ hsql, hs⟩

theorem of_mem_iff {names : List String}
    (h : Spelled U allowedFields names columns) (hmem : ∀ c, c ∈ columns' ↔ c ∈ columns) :
    Spelled U allowedFields names columns' := by
  refine ⟨fun sql hsql => h.of_column sql ((hmem sql).mp hsql), fun hallow name hname => ?_⟩
  obtain ⟨sql, hsql, hs⟩ := h.of_name hallow name hname
  exact ⟨sql, (hmem sql).mpr hsql, hs⟩

/-- One name, in the filter unless the allow-list refuses its field. -/
theorem one {sql : String} (h : sanitizeFieldName U name = some field)
    (hsql : NamesColumn field sql) :
    Spelled U allowedFields [name] (if allows allowedFields field then [sql] else []) := by
  refine ⟨fun s hs => ?_, fun hallow n hn => ?_⟩
  · split at hs
    · rw [List.mem_singleton.mp hs]
      exact ⟨name, List.mem_singleton_self _, field, h, hsql⟩
    · cases hs
  · subst hallow
    rw [List.mem_singleton.mp hn]
    exact ⟨sql, by simp [allows], field, h, hsql⟩

/-- Names an allow-list leaves out. -/
theorem skipped (names : List String) (h : allowedFields ≠ none) :
    Spelled U allowedFields names [] := ⟨by simp, fun hallow => absurd hallow h⟩

end Spelled

theorem ne_none_of_not_allows (h : allows allowedFields field = false) : allowedFields ≠ none := by
  rintro rfl
  cases h

end Spelling

/-! ## The loop -/

/-- The conditions and sorts gathered so far, by the columns they name. -/
def Parsed.heads (p : Parsed) : List String :=
  p.conditions.map (·.field) ++ p.filter.sorts.map (·.field)

/-- From `p` to `p'` the names were read, and the search fields set to `search` if it is there. -/
structure Gathers (U : CharTables) (allowedFields : Option (List String)) (names : List String)
    (search : Option (List String)) (p p' : Parsed) : Prop where
  heads : ∃ new, (∀ c, c ∈ p'.heads ↔ c ∈ p.heads ∨ c ∈ new) ∧ Spelled U allowedFields names new
  search : ∀ old, Spelled U allowedFields old p.filter.searchFields →
    Spelled U allowedFields (search.getD old) p'.filter.searchFields

section Loop

variable {U : CharTables} {columnTypes : ColumnTypes} {allowedFields : Option (List String)}
  {p p' : Parsed} {key value : String} {param : String × String} {params : List (String × String)}
  {c : FilterCondition} {operatorStr : String}

namespace Gathers

/-- The heads stay, and so do the search fields. -/
theorem nothing (hc : p'.filter.conditions = p.filter.conditions)
    (ho : p'.orConditions = p.orConditions) (hs : p'.filter.sorts = p.filter.sorts)
    (hf : p'.filter.searchFields = p.filter.searchFields) :
    Gathers U allowedFields [] none p p' := by
  refine ⟨⟨[], fun c => ?_, .nil⟩, fun old h => hf ▸ h⟩
  simp [Parsed.heads, Parsed.conditions, hc, ho, hs]

theorem trans {names names' : List String} {q r : Parsed}
    (h : Gathers U allowedFields names none p q) (h' : Gathers U allowedFields names' none q r) :
    Gathers U allowedFields (names ++ names') none p r := by
  obtain ⟨new, hnew, hsp⟩ := h.heads
  obtain ⟨new', hnew', hsp'⟩ := h'.heads
  refine ⟨⟨new ++ new', fun c => ?_, hsp.append hsp'⟩, fun old ho => h'.search old (h.search old ho)⟩
  rw [hnew', hnew, List.mem_append, or_assoc]

/-- Names an allow-list leaves out. -/
theorem skipped (names : List String) (h : allowedFields ≠ none) :
    Gathers U allowedFields names none p p :=
  ⟨⟨[], by simp, .skipped names h⟩, fun _ ho => ho⟩

/-- One sort, unless the allow-list refuses its field. -/
theorem sortBy {sql : String} (h : sanitizeFieldName U name = some field)
    (hsql : NamesColumn field sql) (direction : SortDirection) :
    Gathers U allowedFields [name] none p (p.sortBy allowedFields field sql direction) := by
  refine ⟨⟨_, fun c => ?_, .one h hsql⟩, fun old ho => ?_⟩
  · unfold Parsed.sortBy
    split <;> simp [Parsed.heads, Parsed.conditions, QueryFilter.addSort, or_assoc]
  · unfold Parsed.sortBy
    split <;> exact ho

/-- One head, of a field the allow-list lets through. -/
theorem head {sql : String} (h : sanitizeFieldName U name = some field)
    (hallow : allows allowedFields field) (hsql : NamesColumn field sql)
    (hmem : ∀ c, c ∈ p'.heads ↔ c ∈ p.heads ∨ c = sql)
    (hf : p'.filter.searchFields = p.filter.searchFields) :
    Gathers U allowedFields [name] none p p' := by
  have hone : Spelled U allowedFields [name] (if allows allowedFields field then [sql] else []) :=
    .one h hsql
  rw [if_pos hallow] at hone
  exact ⟨⟨_, by simpa using hmem, hone⟩, fun _ ho => hf ▸ ho⟩

end Gathers

theorem namesColumn_self (field : String) : NamesColumn field field := .inl rfl

theorem namesColumn_fieldSql (field : String) : NamesColumn field (fieldSql field) := .inr rfl

theorem sortPart_gathers {part : String} (h : sortPart U key allowedFields p part = .ok p') :
    Gathers U allowedFields
      (([trim part].filter (· ≠ "")).map (trimStartMatches · '-')) none p p' := by
  simp only [sortPart] at h
  split at h
  · rename_i hempty
    cases h
    simpa [hempty] using Gathers.nothing rfl rfl rfl rfl
  · rename_i hempty
    obtain ⟨f, hf, hok⟩ := bind_eq_ok.mp h
    cases hok
    simpa [hempty] using Gathers.sortBy (fieldOf_ok hf) (namesColumn_fieldSql f) _

theorem sortParts_gathers {parts : List String}
    (h : parts.foldlM (sortPart U key allowedFields) p = .ok p') :
    Gathers U allowedFields
      (((parts.map trim).filter (· ≠ "")).map (trimStartMatches · '-')) none p p' := by
  induction parts generalizing p with
  | nil =>
    cases h
    exact .nothing rfl rfl rfl rfl
  | cons part parts ih =>
    rw [List.foldlM_cons] at h
    obtain ⟨q, hq, hrest⟩ := bind_eq_ok.mp h
    have hsplit : part :: parts = [part] ++ parts := rfl
    rw [hsplit, List.map_append, List.filter_append, List.map_append]
    exact (sortPart_gathers hq).trans (ih hrest)

theorem sortSingle_gathers (hcomma : contains value ',' = false)
    (h : sortSingle U key value allowedFields p = .ok p') :
    Gathers U allowedFields (sortNames value) none p p' := by
  simp only [sortSingle] at h
  simp only [sortNames, hcomma, Bool.false_eq_true, if_false]
  split at h
  · rename_i hempty
    cases h
    rw [if_pos hempty]
    exact .nothing rfl rfl rfl rfl
  · rename_i hempty
    obtain ⟨f, hf, hok⟩ := bind_eq_ok.mp h
    cases hok
    rw [if_neg hempty]
    exact .sortBy (fieldOf_ok hf) (namesColumn_fieldSql f) _

theorem searchColumns_spelled {columns : List String}
    (h : searchColumns U key value allowedFields = .ok columns) :
    Spelled U allowedFields (searchNames value) columns := by
  obtain ⟨fields, hfields, hok⟩ := bind_eq_ok.mp h
  cases hok
  have htable := mapM_eq_ok.mp hfields
  refine ⟨fun f hf => ?_, fun hallow name hname => ?_⟩
  · obtain ⟨name, hname, hs⟩ := Table.exists_of_mem_right htable (List.mem_of_mem_filter hf)
    exact ⟨name, hname, f, fieldOf_ok hs, namesColumn_self f⟩
  · obtain ⟨f, hf, hs⟩ := Table.exists_of_mem_left htable hname
    subst hallow
    refine ⟨f, List.mem_filter.mpr ⟨hf, rfl⟩, f, fieldOf_ok hs, namesColumn_self f⟩

theorem mem_heads_addCondition (s : String) :
    s ∈ Parsed.heads { p with filter := p.filter.addCondition c } ↔ s ∈ p.heads ∨ s = c.field := by
  simp only [Parsed.heads, Parsed.conditions, QueryFilter.addCondition, List.map_append,
    List.map_cons, List.map_nil, List.mem_append, List.mem_singleton]
  tauto

theorem mem_heads_orCondition (s : String) :
    s ∈ Parsed.heads { p with orConditions := p.orConditions ++ [c] } ↔
      s ∈ p.heads ∨ s = c.field := by
  simp only [Parsed.heads, Parsed.conditions, List.map_append, List.map_cons, List.map_nil,
    List.mem_append, List.mem_singleton]
  tauto

theorem mem_heads_addSort {sort : SortSpec} (s : String) :
    s ∈ Parsed.heads { p with filter := p.filter.addSort sort } ↔ s ∈ p.heads ∨ s = sort.field := by
  simp only [Parsed.heads, Parsed.conditions, QueryFilter.addSort, List.map_append, List.map_cons,
    List.map_nil, List.mem_append, List.mem_singleton]
  tauto

theorem parseOperator_gathers
    (hfield : sanitizeFieldName U name = some field) (hallow : allows allowedFields field)
    (h : parseOperator U columnTypes key value field operatorStr p = .ok p') :
    Gathers U allowedFields [name] none p p' := by
  unfold parseOperator at h
  split at h
  · cases h
    exact .head hfield hallow (namesColumn_fieldSql field) mem_heads_addSort rfl
  · cases h
    exact .head hfield hallow (namesColumn_self field) mem_heads_orCondition rfl
  · cases h
    exact .head hfield hallow (namesColumn_self field) mem_heads_orCondition rfl
  · split at h
    · cases h
      exact .head hfield hallow (namesColumn_fieldSql field) mem_heads_addCondition rfl
    · cases h

theorem parseBracket_gathers
    (h : parseBracket U columnTypes allowedFields key value field operatorStr p = .ok p') :
    Gathers U allowedFields (if isSortKey field then [operatorStr] else [field]) none p p' := by
  obtain ⟨name, hname, ⟨hallow, rfl⟩ | ⟨-, hsort, sortField, hsf, rfl⟩ | ⟨hallow, hsort, hok⟩⟩ :=
    parseBracket_cases h
  · exact .skipped _ (ne_none_of_not_allows hallow)
  · rw [if_pos hsort]
    exact .sortBy (fieldOf_ok hsf) (namesColumn_self sortField) _
  · rw [if_neg (Bool.not_eq_true _ ▸ hsort)]
    exact parseOperator_gathers (fieldOf_ok hname) hallow hok

theorem parseEquality_gathers (h : parseEquality U columnTypes allowedFields key value p = .ok p') :
    Gathers U allowedFields [key] none p p' := by
  obtain ⟨field, hfield, hok⟩ := bind_eq_ok.mp h
  split at hok
  · rename_i hallow
    cases hok
    exact .skipped _ (ne_none_of_not_allows (by simpa using hallow))
  · rename_i hallow
    cases hok
    exact .head (fieldOf_ok hfield) (by simpa using hallow) (namesColumn_fieldSql field)
      mem_heads_addCondition rfl

theorem parseSort_gathers
    (h : (if contains value ',' then (split value ',').foldlM (sortPart U key allowedFields) p
      else sortSingle U key value allowedFields p) = .ok p') :
    Gathers U allowedFields (sortNames value) none p p' := by
  split at h
  · rename_i hcomma
    rw [sortNames, if_pos hcomma]
    exact sortParts_gathers h
  · rename_i hcomma
    exact sortSingle_gathers (by simpa using hcomma) h

/-- The names of a key without a bracket that is not in the internal namespace. -/
theorem parsePlain_gathers (hkey : isInternalKey param.1 = false)
    (hb : bracketOf param.1 = none)
    (h : parsePlain U columnTypes allowedFields param.1 param.2 p = .ok p') :
    Gathers U allowedFields (paramNames param) (searchOf param) p p' := by
  have hsearch (hne : toAsciiLowercase param.1 ≠ "searchfields") : searchOf param = none := by
    simp [searchOf, hkey, hb, hne]
  have hnames : paramNames param =
      if toAsciiLowercase param.1 ∈ ["orderby", "sort"] then sortNames param.2
      else if toAsciiLowercase param.1 ∈ consumedKeys ∨ param.1 ∈ ["fields", "include", "with"] then
        []
      else [param.1] := by
    simp only [paramNames, hkey, hb, Bool.false_eq_true, if_false]
  have hconsumed (hmem : toAsciiLowercase param.1 ∈ consumedKeys) : paramNames param = [] := by
    rw [hnames, if_neg (fun hsort => ?_), if_pos (.inl hmem)]
    revert hmem
    rcases List.mem_pair.mp hsort with heq | heq <;> rw [heq] <;> decide
  unfold parsePlain at h
  split at h
  case h_4 _ heq =>
    obtain ⟨columns, hcolumns, hok⟩ := bind_eq_ok.mp h
    cases hok
    have hsf : searchOf param = some (searchNames param.2) := by simp [searchOf, hkey, hb, heq]
    rw [hsf, hconsumed (by rw [heq]; decide)]
    exact ⟨⟨[], by simp [Parsed.heads, Parsed.conditions], .nil⟩,
      fun _ _ => searchColumns_spelled hcolumns⟩
  case h_1 _ heq | h_2 _ heq =>
    rw [hsearch (by rw [heq]; decide), hnames, if_pos (by rw [heq]; decide)]
    exact parseSort_gathers h
  case h_3 _ heq | h_11 _ heq | h_12 _ heq | h_13 _ heq | h_14 _ heq =>
    cases h
    rw [hsearch (by rw [heq]; decide), hconsumed (by rw [heq]; decide)]
    exact .nothing rfl rfl rfl rfl
  case h_15 =>
    have hplain : toAsciiLowercase param.1 ∉ ["orderby", "sort"] ∧
        toAsciiLowercase param.1 ∉ consumedKeys := by
      simp_all [consumedKeys]
    rw [hsearch (fun heq => hplain.2 (by rw [heq]; decide)), hnames, if_neg hplain.1]
    split at h
    · rename_i hreserved
      cases h
      rw [if_pos (.inr hreserved)]
      exact .nothing rfl rfl rfl rfl
    · rename_i hreserved
      rw [if_neg (fun hor => hor.elim hplain.2 hreserved)]
      exact parseEquality_gathers h
  all_goals
    rename_i heq
    rw [hsearch (by rw [heq]; decide), hconsumed (by rw [heq]; decide)]
    split at h
    · cases h
      exact .nothing rfl rfl rfl rfl
    · obtain ⟨n, -, hok⟩ := bind_eq_ok.mp h
      cases hok
      exact .nothing rfl rfl rfl rfl

theorem parseParam_gathers (h : parseParam U columnTypes allowedFields p param = .ok p') :
    Gathers U allowedFields (paramNames param) (searchOf param) p p' := by
  simp only [parseParam] at h
  split at h
  · rename_i hkey
    cases h
    simp only [paramNames, searchOf, hkey, if_true, Bool.true_or]
    exact .nothing rfl rfl rfl rfl
  · rename_i hkey
    rw [Bool.not_eq_true] at hkey
    cases hb : bracketOf param.1 with
    | some b =>
      simp only [hb] at h
      split at h
      · rename_i hclosed
        simp only [paramNames, searchOf, hkey, hb, hclosed, Bool.not_true, Bool.false_eq_true,
          if_false, Option.isSome_some, Bool.or_true, if_true]
        exact parseBracket_gathers h
      · cases h
    | none =>
      simp only [hb] at h
      exact parsePlain_gathers hkey hb h

/-- The loop over the parameters. -/
theorem parseParams_spelled {heads search : List String}
    (h : params.foldlM (parseParam U columnTypes allowedFields) p = .ok p')
    (hheads : Spelled U allowedFields heads p.heads)
    (hsearch : Spelled U allowedFields search p.filter.searchFields) :
    Spelled U allowedFields (heads ++ params.flatMap paramNames) p'.heads ∧
      Spelled U allowedFields (lastSearch search params) p'.filter.searchFields := by
  induction params generalizing p heads search with
  | nil =>
    cases h
    simpa [lastSearch] using ⟨hheads, hsearch⟩
  | cons x params ih =>
    rw [List.foldlM_cons] at h
    obtain ⟨q, hq, hrest⟩ := bind_eq_ok.mp h
    have hx := parseParam_gathers hq
    obtain ⟨new, hnew, hsp⟩ := hx.heads
    have hheads' : Spelled U allowedFields (heads ++ paramNames x) q.heads :=
      (hheads.append hsp).of_mem_iff (by simpa using hnew)
    have := ih hrest hheads' (hx.search search hsearch)
    rwa [List.append_assoc] at this

/-- The columns of a parsed filter are the names read off its parameters. -/
theorem parseFilters_columns {q : QueryFilter}
    (h : parseFilters U params columnTypes allowedFields = .ok q) :
    Spelled U allowedFields (readNames params) q.columns := by
  obtain ⟨p, hp, hok⟩ := bind_eq_ok.mp h
  have hheads : Spelled U allowedFields [] (Parsed.heads {}) := .nil
  have hsearch : Spelled U allowedFields [] (Parsed.filter {}).searchFields := .nil
  obtain ⟨hheads, hsearch⟩ := parseParams_spelled hp hheads hsearch
  rw [foldl_addCondition] at hok
  cases hok
  rw [List.nil_append] at hheads
  exact (hheads.append hsearch).of_mem_iff (by
    simp [QueryFilter.columns, Parsed.heads, Parsed.conditions])

end Loop

end Backbone.Orm
