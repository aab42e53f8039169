import Backbone.Core.QueryGate

/-!
# Refused columns and the statement

A column is refused when it belongs to a secret field, or to a permission-gated field whose
permission the caller lacks. The gate and the parser read the same request with different grammars
and fold names differently, so what passes the gate need not keep a refused column out of the
statement: a single sort with a direction behind a colon (`orderby=tokenHash:desc`) is one the gate
does not take apart. `ReadAlike` says where the two readings part, and `gate_keeps_out` that they
part nowhere else.
-/

namespace Backbone.Core

open Text Orm

variable {name field key value : String} {entry : String × String}

/-! ## What is refused -/

/-- A column in snake case: letters, digits and underscores, none in upper case. -/
def SnakeCase (U : CharTables) (column : String) : Prop :=
  ∀ c ∈ column.toList, (U.isAlphanumeric c = true ∧ U.isUppercase c = false) ∨ c = '_'

instance (U : CharTables) (column : String) : Decidable (SnakeCase U column) :=
  List.decidableBAll _ column.toList

/-- The columns behind an entity's secret and permission-gated fields. Each field is declared by the
camelCase response key of its column. -/
structure DeclaredColumns (U : CharTables) (toUppercase : Char → List Char) (E : EntityMeta) where
  secret : List String
  /-- A column and the permission that unlocks it. -/
  gated : List (String × String)
  secret_fields : E.secretFields = secret.map (snakeToCamel toUppercase)
  field_permissions : E.fieldPermissions = gated.map fun g => (snakeToCamel toUppercase g.1, g.2)
  snakeCase : ∀ column ∈ secret ++ gated.map (·.1), SnakeCase U column

/-- The columns a caller may not name. -/
def DeclaredColumns.refused {U : CharTables} {toUppercase : Char → List Char} {E : EntityMeta}
    (D : DeclaredColumns U toUppercase E) (caller : Caller) : List String :=
  D.secret ++ (D.gated.filter fun g => !caller.held g.2).map (·.1)

/-- Does the gate's own fold of a name land on a field it refuses? -/
def gateRefuses (E : EntityMeta) (caller : Caller) (name : String) : Bool :=
  (E.secretFields.map camelToSnakeCase).contains (camelToSnakeCase (trim name)) ||
    (gatedAt E.fieldPermissions caller name).isSome

/-- The routes that read a list query. -/
inductive ListRoute where
  | list | count | aggregate
deriving DecidableEq, Repr

/-- The filters a route hands the parser. -/
def ListRoute.filters (route : ListRoute) (params : ListQueryParams) : List (String × String) :=
  match route with
  | .list | .count => repositoryFilters params
  | .aggregate => aggregateFilters params

/-- The columns a route names besides its filters. -/
def ListRoute.columns (route : ListRoute) (params : ListQueryParams) : List String :=
  match route with
  | .list | .count => []
  | .aggregate => (aggregateSpec params).columns

/-- No refused column is in the filter, or among the columns the route names besides it. -/
def KeepsOut (refused : List String) (q : QueryFilter) (own : List String) : Prop :=
  ∀ column ∈ refused, (∀ sql ∈ q.columns, ¬ NamesColumn column sql) ∧ column ∉ own

/-- The gate and the parser read the request alike, as far as refused columns go. `walk` is the order
the parser walks the filters in, `own` are the columns the route names besides them. -/
structure ReadAlike (U : CharTables) (E : EntityMeta) (caller : Caller) (refused : List String)
    (params : ListQueryParams) (walk : List (String × String)) (own : List String) : Prop where
  /-- The gate does not read the typed `status`. -/
  status : params.status.isSome → toSnakeCase U "status" ∉ refused
  /-- The gate does not cut a `:dir` off a sort. -/
  suffix : ∀ entry ∈ walk, entry ∈ params.filters → isSortKey entry.1 → contains entry.2 ':' →
    ∀ name ∈ sortNames entry.2, toSnakeCase U name ∉ refused
  /-- The gate takes the typed `sort_by` as it is, where the parser takes it apart. -/
  sortBy : ∀ orderby, typedSort params = some orderby → ∀ name ∈ sortNames orderby,
    sortField params ≠ some name → toSnakeCase U name ∉ refused
  /-- A name the parser folds onto a refused column the gate folds onto a field it refuses. -/
  filters : ∀ name ∈ readNames walk, toSnakeCase U name ∈ refused → gateRefuses E caller name
  own : ∀ name ∈ own, name ∈ refused → gateRefuses E caller name

/-! ## The gate -/

section Gate

variable {U : CharTables} {E : EntityMeta} {caller : Caller} {params : ListQueryParams}
  {named : String × String}

theorem gateRefuses_congr {name' : String} (h : trim name = trim name') :
    gateRefuses E caller name = gateRefuses E caller name' := by
  simp only [gateRefuses, gatedAt, h]

/-- A request without a refusal names nothing the gate refuses. -/
theorem not_gateRefuses_of_no_refusal {paged : Bool}
    (h : queryRefusals U E params paged caller = [])
    (hnamed : named ∈ namedColumns params) : gateRefuses E caller named.2 = false := by
  simp only [queryRefusals, List.append_eq_nil_iff, List.map_eq_nil_iff,
    Option.toList_eq_nil_iff] at h
  obtain ⟨⟨⟨-, hsecret⟩, hgated⟩, -⟩ := h
  rw [gateRefuses, Bool.or_eq_false_iff]
  constructor
  · unfold namedSecretAt at hsecret
    split at hsecret
    · rename_i hempty
      simp [List.isEmpty_iff.mp hempty]
    · simpa using List.find?_eq_none.mp hsecret named hnamed
  · unfold namedGatedAt at hgated
    split at hgated
    · rename_i hempty
      simp [gatedAt, List.isEmpty_iff.mp hempty]
    · have := List.findSome?_eq_none_iff.mp hgated named hnamed
      simpa using this

theorem mem_namedColumns (h : entry ∈ params.filters)
    (hnamed : named ∈ entryNames entry.1 entry.2) : named ∈ namedColumns params := by
  refine List.mem_append_left _ (List.mem_flatMap.mpr ⟨entry, ?_, hnamed⟩)
  exact (List.mem_insertionSort _).mpr h

end Gate

/-! ## The two readings -/

section Readings

variable {U : CharTables}

theorem not_whitespace_of_sanitize (hspace : WhitespaceApart U)
    (h : sanitizeFieldName U name = some field) : ∀ c ∈ name.toList, isWhitespace c = false := by
  intro c hc
  rw [← Bool.not_eq_true]
  intro hw
  have := (word_of_sanitize h).2 c hc
  rw [hspace c hw, Bool.false_or] at this
  rw [beq_iff_eq.mp this] at hw
  exact absurd hw (by decide)

theorem trim_of_sanitize (hspace : WhitespaceApart U) (h : sanitizeFieldName U name = some field) :
    trim name = name :=
  trim_eq_self (not_whitespace_of_sanitize hspace h)

/-- A sanitized name holds no ASCII punctuation but the underscore. -/
theorem not_mem_of_sanitize (h : sanitizeFieldName U name = some field) {c : Char}
    (hc : c.toNat < 128) (halnum : c.isAlphanum = false) (hne : c ≠ '_') : c ∉ name.toList := by
  intro hmem
  have := (word_of_sanitize h).2 c hmem
  rw [U.alphanumeric_ascii c hc, halnum, Bool.false_or, beq_iff_eq] at this
  exact hne this

/-- The column in the brackets of `orderby[column]`. -/
theorem trimEndMatches_of_closed {key field rest : String}
    (hb : bracketOf key = some (field, rest)) (hclosed : endsWith key ']')
    (h : ']' ∉ rest.toList.dropLast) :
    trimEndMatches rest ']' = String.ofList rest.toList.dropLast := by
  have hkey := toList_of_splitOnce hb
  have hlast : rest.toList.getLast? = some ']' := by
    rw [endsWith, hkey, beq_iff_eq] at hclosed
    cases hr : rest.toList with
    | nil =>
      rw [hr] at hclosed
      simp at hclosed
    | cons d l =>
      rw [hr] at hclosed
      simpa using hclosed
  have hrest : rest = String.ofList ((String.ofList rest.toList.dropLast).toList ++ [']']) := by
    rw [String.toList_ofList, List.dropLast_append_getLast? _ hlast, String.ofList_toList]
  conv_lhs => rw [hrest]
  exact trimEndMatches_append (by simpa using h)

/-- The parts of a list of columns, as the gate reads them. -/
theorem mem_entryNames_of_part {part : String} (hkey : toAsciiLowercase key ∈ columnLists)
    (hpart : part ∈ split value ',') :
    trimStartMatches (trim part) '-' ∈ (entryNames key value).map (·.2) := by
  rw [entryNames, if_pos hkey, List.map_append]
  refine List.mem_append_right _ ?_
  rw [List.map_map]
  exact List.mem_map.mpr ⟨part, hpart, rfl⟩

/-- The keys that the server reads itself are written in lower case, and plainly. -/
theorem plain_serverKeys : ∀ key ∈ ["search", "status", "orderby", "sort"],
    isInternalKey key = false ∧ bracketOf key = none ∧ toAsciiLowercase key = key := by
  decide +kernel

theorem toAsciiLowercase_of_mem_columnLists : ∀ key ∈ columnLists, toAsciiLowercase key = key := by
  decide +kernel

theorem isSortKey_iff : isSortKey key ↔ toAsciiLowercase key ∈ ["orderby", "sort"] := by
  have ho := (plain_serverKeys "orderby" (by simp)).2.2
  have hs := (plain_serverKeys "sort" (by simp)).2.2
  simp [isSortKey, eqIgnoreAsciiCase, ho, hs]

/-- A sort of the client's own is read by the gate too, unless a direction follows a colon. -/
theorem mem_entryNames_of_sort (hspace : WhitespaceApart U) (hkey : isSortKey key)
    (hcolon : contains value ':' = false) (hname : name ∈ sortNames value)
    (hs : sanitizeFieldName U name = some field) : name ∈ (entryNames key value).map (·.2) := by
  have hlist : toAsciiLowercase key ∈ columnLists := by
    rcases List.mem_pair.mp (isSortKey_iff.mp hkey) with h | h <;> rw [h] <;> decide
  unfold sortNames at hname
  split at hname
  · obtain ⟨trimmed, htrimmed, rfl⟩ := List.mem_map.mp hname
    obtain ⟨part, hpart, rfl⟩ := List.mem_map.mp (List.mem_of_mem_filter htrimmed)
    exact mem_entryNames_of_part hlist hpart
  · rename_i hcomma
    have hbare : (sortSuffix value).1 = value := by rw [sortSuffix, splitOnce_eq_none hcolon]
    simp only [hbare] at hname
    split at hname
    · cases hname
    · rw [List.mem_singleton] at hname
      subst hname
      have htrim : trim value = value := by
        refine trim_eq_self fun c hc => ?_
        rw [← List.takeWhile_append_dropWhile (p := (· == '-')) (l := value.toList),
          List.mem_append] at hc
        rcases hc with hc | hc
        · have hd := List.mem_takeWhile_imp hc
          rw [beq_iff_eq.mp hd]
          decide
        · exact not_whitespace_of_sanitize hspace hs c (by simpa [trimStartMatches] using hc)
      have hpart : value ∈ split value ',' := by
        rw [split_of_not_contains (by simpa using hcomma)]
        exact List.mem_singleton_self _
      have := mem_entryNames_of_part hlist hpart
      rwa [htrim] at this

/-- Every name the parser takes from one of the client's own filters is read by the gate, unless a
direction follows a colon. -/
theorem mem_entryNames (hspace : WhitespaceApart U)
    (hname : name ∈ paramNames entry ∨ ∃ names, searchOf entry = some names ∧ name ∈ names)
    (hcolon : isSortKey entry.1 → contains entry.2 ':' = false ∨ name ∉ sortNames entry.2)
    (hs : sanitizeFieldName U name = some field) :
    name ∈ (entryNames entry.1 entry.2).map (·.2) := by
  have hdash : trimStartMatches name '-' = name :=
    trimStartMatches_eq_self (not_mem_of_sanitize hs (by decide) (by decide) (by decide))
  rcases hname with hname | ⟨names, hsearch, hname⟩
  · unfold paramNames at hname
    split at hname
    · cases hname
    · split at hname
      · rename_i col rest hb
        have hb' : splitOnce entry.1 '[' = some (col, rest) := hb
        split_ifs at hname with hclosed hsort
        · cases hname
        · rw [List.mem_singleton] at hname
          subst hname
          have hnot : ']' ∉ rest.toList.dropLast := by
            simpa using not_mem_of_sanitize hs (c := ']') (by decide) (by decide) (by decide)
          have := trimEndMatches_of_closed hb (by simpa using hclosed) hnot
          simp [entryNames, hb', this]
        · rw [List.mem_singleton] at hname
          simp [entryNames, hb', hname]
      · rename_i hb
        have hb' : splitOnce entry.1 '[' = none := hb
        split_ifs at hname with hsort hconsumed
        · have hsort := isSortKey_iff.mpr hsort
          rcases hcolon hsort with hcolon | hnot
          · exact mem_entryNames_of_sort hspace hsort hcolon hname hs
          · exact absurd hname hnot
        · cases hname
        · rw [List.mem_singleton] at hname
          simp [entryNames, hb', hname]
  · unfold searchOf at hsearch
    split_ifs at hsearch with hskip hkey
    cases hsearch
    obtain ⟨part, hpart, rfl⟩ := List.mem_map.mp (List.mem_of_mem_filter hname)
    have hlist : toAsciiLowercase entry.1 ∈ columnLists := by rw [hkey]; decide
    have := mem_entryNames_of_part hlist hpart
    rwa [hdash] at this

end Readings

/-! ## What the parser is handed -/

section Filters

variable {params : ListQueryParams} {entry : String × String} {filters : List (String × String)}
  {route : ListRoute}

theorem mem_removeKey : entry ∈ removeKey filters key ↔ entry ∈ filters ∧ entry.1 ≠ key := by
  simp [removeKey]

theorem mem_removeKeys {keys : List String} :
    entry ∈ keys.foldl removeKey filters ↔ entry ∈ filters ∧ entry.1 ∉ keys := by
  induction keys generalizing filters with
  | nil => simp
  | cons key keys ih =>
    rw [List.foldl_cons, ih, mem_removeKey, List.mem_cons, not_or, and_assoc]

theorem mem_insertKey :
    entry ∈ insertKey filters key value ↔
      (entry ∈ filters ∧ entry.1 ≠ key) ∨ entry = (key, value) := by
  simp [insertKey]

/-- What the typed filters hold: the client's own, the search and the status. -/
theorem of_mem_typedFilters (h : entry ∈ typedFilters params) :
    (entry ∈ params.filters ∧ isInternalKey entry.1 = false) ∨ entry.1 = "search" ∨
      (params.status = some entry.2 ∧ entry.1 = "status") := by
  simp only [typedFilters] at h
  have hbase (h : entry ∈ (reservedQueryKeys.foldl removeKey params.filters).filter
      fun entry => !isInternalKey entry.1) :
      entry ∈ params.filters ∧ isInternalKey entry.1 = false := by
    obtain ⟨hmem, hkey⟩ := List.mem_filter.mp h
    exact ⟨(mem_removeKeys.mp hmem).1, by simpa using hkey⟩
  split at h
  · rename_i status hstatus
    rcases mem_insertKey.mp h with ⟨h, -⟩ | rfl
    · split at h
      · rcases mem_insertKey.mp h with ⟨h, -⟩ | rfl
        · exact .inl (hbase h)
        · exact .inr (.inl rfl)
      · exact .inl (hbase h)
    · exact .inr (.inr ⟨hstatus, rfl⟩)
  · split at h
    · rcases mem_insertKey.mp h with ⟨h, -⟩ | rfl
      · exact .inl (hbase h)
      · exact .inr (.inl rfl)
    · exact .inl (hbase h)

/-- What a route hands the parser: the client's own filters, the search, the status and the typed
sort. -/
theorem of_mem_filters (h : entry ∈ route.filters params) :
    (entry ∈ params.filters ∧ isInternalKey entry.1 = false) ∨ entry.1 = "search" ∨
      (params.status = some entry.2 ∧ entry.1 = "status") ∨
      (typedSort params = some entry.2 ∧ entry.1 = "orderby") := by
  have hrepo (h : entry ∈ repositoryFilters params) :
      (entry ∈ params.filters ∧ isInternalKey entry.1 = false) ∨ entry.1 = "search" ∨
        (params.status = some entry.2 ∧ entry.1 = "status") ∨
        (typedSort params = some entry.2 ∧ entry.1 = "orderby") := by
    unfold repositoryFilters at h
    split at h
    · rename_i orderby hsort
      rcases mem_insertKey.mp h with ⟨h, -⟩ | rfl
      · rcases of_mem_typedFilters h with h | h | h
        exacts [.inl h, .inr (.inl h), .inr (.inr (.inl h))]
      · exact .inr (.inr (.inr ⟨hsort, rfl⟩))
    · rcases of_mem_typedFilters h with h | h | h
      exacts [.inl h, .inr (.inl h), .inr (.inr (.inl h))]
  cases route with
  | list => exact hrepo h
  | count => exact hrepo h
  | aggregate => exact hrepo (mem_removeKeys.mp h).1

/-- A route hands on what is in the repository's filters, but for the aggregate's own keys. -/
theorem mem_filters (h : entry ∈ repositoryFilters params)
    (hkey : entry.1 ∉ aggregateQueryKeys) : entry ∈ route.filters params := by
  cases route with
  | list => exact h
  | count => exact h
  | aggregate => exact mem_removeKeys.mpr ⟨h, hkey⟩

theorem status_mem_filters {status : String} (h : params.status = some status)
    (route : ListRoute) : ("status", status) ∈ route.filters params := by
  refine mem_filters ?_ (show "status" ∉ aggregateQueryKeys by decide)
  have htyped : ("status", status) ∈ typedFilters params := by
    simp only [typedFilters, h]
    exact mem_insertKey.mpr (.inr rfl)
  unfold repositoryFilters
  split
  · exact mem_insertKey.mpr (.inl ⟨htyped, show "status" ≠ "orderby" by decide⟩)
  · exact htyped

theorem orderby_mem_filters {orderby : String} (h : typedSort params = some orderby)
    (route : ListRoute) : ("orderby", orderby) ∈ route.filters params := by
  refine mem_filters ?_ (show "orderby" ∉ aggregateQueryKeys by decide)
  simp only [repositoryFilters, h]
  exact mem_insertKey.mpr (.inr rfl)

end Filters

/-! ## The aggregate's own columns -/

section Own

variable {U : CharTables} {params : ListQueryParams} {column : String}

/-- A character that is not white space is not trimmed off. -/
theorem mem_trim {s : String} {c : Char} (h : c ∈ s.toList) (hc : isWhitespace c = false) :
    c ∈ (trim s).toList := by
  have hdrop {l : List Char} (hl : c ∈ l) : c ∈ l.dropWhile isWhitespace := by
    rw [← List.takeWhile_append_dropWhile (p := isWhitespace) (l := l), List.mem_append] at hl
    rcases hl with hl | hl
    · have := List.mem_takeWhile_imp hl
      rw [hc] at this
      cases this
    · exact hl
  rw [trim, String.toList_ofList, List.mem_reverse]
  exact hdrop (List.mem_reverse.mpr (hdrop h))

theorem not_mem_of_snakeCase (h : SnakeCase U column) {c : Char}
    (hc : c.toNat < 128) (halnum : c.isAlphanum = false) (hne : c ≠ '_') :
    c ∉ column.toList := by
  intro hmem
  rcases h c hmem with ⟨hal, -⟩ | heq
  · rw [U.alphanumeric_ascii c hc, halnum] at hal
    cases hal
  · exact hne heq

/-- A column of a list the aggregate reads is read by the gate. -/
theorem mem_entryNames_of_listEntries (h : SnakeCase U column)
    (hkey : toAsciiLowercase key ∈ columnLists) (hmem : column ∈ listEntries value) :
    column ∈ (entryNames key value).map (·.2) := by
  obtain ⟨part, hpart, rfl⟩ := List.mem_map.mp (List.mem_of_mem_filter hmem)
  have := mem_entryNames_of_part hkey hpart
  rwa [trimStartMatches_eq_self
    (not_mem_of_snakeCase h (by decide) (by decide) (by decide))] at this

/-- A single column the aggregate reads is read by the gate. -/
theorem mem_entryNames_of_trim (h : SnakeCase U (trim value))
    (hkey : toAsciiLowercase key ∈ columnLists) :
    trim value ∈ (entryNames key value).map (·.2) := by
  have hcomma : contains value ',' = false := by
    rw [← Bool.not_eq_true]
    intro hc
    have : ',' ∈ value.toList := by simpa [contains] using hc
    exact not_mem_of_snakeCase h (by decide) (by decide) (by decide) (mem_trim this (by decide))
  have hpart : value ∈ split value ',' := by
    rw [split_of_not_contains hcomma]
    exact List.mem_singleton_self _
  have := mem_entryNames_of_part hkey hpart
  rwa [trimStartMatches_eq_self
    (not_mem_of_snakeCase h (by decide) (by decide) (by decide))] at this

/-- Every column in snake case a route names besides its filters is read by the gate. -/
theorem mem_namedColumns_of_own {route : ListRoute} (h : SnakeCase U column)
    (hmem : column ∈ route.columns params) : ∃ named ∈ namedColumns params, named.2 = column := by
  have hread {key value : String} (hget : getKey params.filters key = some value)
      (hin : column ∈ (entryNames key value).map (·.2)) :
      ∃ named ∈ namedColumns params, named.2 = column := by
    obtain ⟨named, hnamed, heq⟩ := List.mem_map.mp hin
    exact ⟨named, mem_namedColumns (Table.mem_of_lookup hget) hnamed, heq⟩
  have hone {key : String} (hkey : toAsciiLowercase key ∈ columnLists)
      (hin : column ∈ ((getKey params.filters key).map trim).filter (· ≠ "")) :
      ∃ named ∈ namedColumns params, named.2 = column := by
    obtain ⟨value, hget, rfl⟩ : ∃ value, getKey params.filters key = some value ∧
        trim value = column := by
      simpa [Option.mem_def] using (Option.filter_eq_some_iff.mp hin).1
    exact hread hget (mem_entryNames_of_trim h hkey)
  have hlist {key : String} (hkey : key ∈ columnLists) : toAsciiLowercase key ∈ columnLists := by
    rwa [toAsciiLowercase_of_mem_columnLists key hkey]
  cases route with
  | list => cases hmem
  | count => cases hmem
  | aggregate =>
    simp only [ListRoute.columns, AggregateSpec.columns, List.mem_append, Option.mem_toList] at hmem
    rcases hmem with (hgroup | hred) | hlabel
    · exact hone (hlist (by simp [columnLists])) hgroup
    · obtain ⟨reduction, hreduction, rfl⟩ := List.mem_map.mp hred
      obtain ⟨⟨key, func⟩, hkey, hfields⟩ := List.mem_flatMap.mp hreduction
      obtain ⟨field, hfield, rfl⟩ := List.mem_map.mp hfields
      cases hget : getKey params.filters key with
      | none => simp [hget] at hfield
      | some value =>
        rw [hget] at hfield
        have hmemList : key ∈ columnLists := by
          simp only [List.mem_cons, Prod.mk.injEq, List.not_mem_nil, or_false] at hkey
          rcases hkey with ⟨rfl, -⟩ | ⟨rfl, -⟩ | ⟨rfl, -⟩ | ⟨rfl, -⟩ <;> simp [columnLists]
        exact hread hget (mem_entryNames_of_listEntries h (hlist hmemList) hfield)
    · exact hone (hlist (by simp [columnLists])) hlabel

end Own

/-! ## What passes the gate -/

section Passes

variable {U : CharTables} {toUppercase : Char → List Char} {E : EntityMeta} {caller : Caller}
  {params : ListQueryParams} {walk : List (String × String)} {refused own : List String}

theorem mem_lastSearch {init : List String} (h : name ∈ lastSearch init walk) :
    name ∈ init ∨ ∃ entry ∈ walk, ∃ names, searchOf entry = some names ∧ name ∈ names := by
  induction walk generalizing init with
  | nil => exact .inl h
  | cons entry walk ih =>
    rw [lastSearch, List.foldl_cons] at h
    rcases ih h with h | ⟨entry', hentry, hnames⟩
    · cases hsearch : searchOf entry with
      | none =>
        rw [hsearch] at h
        exact .inl h
      | some names =>
        rw [hsearch] at h
        exact .inr ⟨entry, List.mem_cons_self, names, hsearch, h⟩
    · exact .inr ⟨entry', List.mem_cons_of_mem _ hentry, hnames⟩

theorem of_mem_readNames (h : name ∈ readNames walk) :
    ∃ entry ∈ walk, name ∈ paramNames entry ∨
      ∃ names, searchOf entry = some names ∧ name ∈ names := by
  rcases List.mem_append.mp h with h | h
  · obtain ⟨entry, hentry, hname⟩ := List.mem_flatMap.mp h
    exact ⟨entry, hentry, .inl hname⟩
  · rcases mem_lastSearch h with h | ⟨entry, hentry, hnames⟩
    · cases h
    · exact ⟨entry, hentry, .inr hnames⟩

theorem mem_readNames_of_param (h : entry ∈ walk) (hname : name ∈ paramNames entry) :
    name ∈ readNames walk :=
  List.mem_append_left _ (List.mem_flatMap.mpr ⟨entry, h, hname⟩)

theorem paramNames_status (value : String) : paramNames ("status", value) = ["status"] := by
  obtain ⟨hi, hb, hl⟩ := plain_serverKeys "status" (by simp)
  simp [paramNames, hi, hb, hl, consumedKeys]

theorem paramNames_orderby (value : String) : paramNames ("orderby", value) = sortNames value := by
  obtain ⟨hi, hb, hl⟩ := plain_serverKeys "orderby" (by simp)
  simp [paramNames, hi, hb, hl]

/-- A sort key opens no bracket. -/
theorem bracketOf_of_isSortKey (h : isSortKey key) : bracketOf key = none := by
  refine splitOnce_eq_none ?_
  rw [← Bool.not_eq_true]
  intro hc
  have hmem : '[' ∈ key.toList := by simpa [contains] using hc
  have hlow : '[' ∈ (toAsciiLowercase key).toList := by
    rw [toAsciiLowercase, String.toList_ofList]
    exact List.mem_map.mpr ⟨'[', hmem, by decide⟩
  rcases List.mem_pair.mp (isSortKey_iff.mp h) with heq | heq <;> rw [heq] at hlow <;>
    exact absurd hlow (by decide)

theorem paramNames_of_isSortKey (h : isSortKey entry.1) (hkey : isInternalKey entry.1 = false) :
    paramNames entry = sortNames entry.2 := by
  simp [paramNames, hkey, bracketOf_of_isSortKey h, isSortKey_iff.mp h]

/-- A name that reaches a condition, sort or search field folds onto no refused column. -/
theorem not_refused_of_spells (hspace : WhitespaceApart U) {paged : Bool} {route : ListRoute}
    (hgate : queryRefusals U E params paged caller = []) (hwalk : walk.Perm (route.filters params))
    (halike : ReadAlike U E caller refused params walk own) (hname : name ∈ readNames walk)
    (hs : sanitizeFieldName U name = some field) : toSnakeCase U name ∉ refused := by
  intro hrefused
  have hfold := halike.filters name hname hrefused
  have hclear {named : String × String} (hnamed : named ∈ namedColumns params)
      (htrim : trim named.2 = trim name) : False := by
    have := not_gateRefuses_of_no_refusal hgate hnamed
    rw [gateRefuses_congr htrim, hfold] at this
    cases this
  obtain ⟨entry, hentry, hnames⟩ := of_mem_readNames hname
  rcases of_mem_filters (hwalk.mem_iff.mp hentry) with
    ⟨hclient, -⟩ | hsearch | ⟨hstatus, hkey⟩ | ⟨hsort, hkey⟩
  · have hcolon (hsort : isSortKey entry.1) :
        contains entry.2 ':' = false ∨ name ∉ sortNames entry.2 := by
      by_cases hc : contains entry.2 ':'
      · exact .inr fun hmem => halike.suffix entry hentry hclient hsort hc name hmem hrefused
      · exact .inl (by simpa using hc)
    obtain ⟨named, hnamed, heq⟩ := List.mem_map.mp (mem_entryNames hspace hnames hcolon hs)
    exact hclear (mem_namedColumns hclient hnamed) (by rw [heq])
  · obtain ⟨hi, hb, hl⟩ := plain_serverKeys "search" (by simp)
    rcases hnames with hnames | ⟨names, hnames, -⟩
    · simp [paramNames, hsearch, hi, hb, hl, consumedKeys] at hnames
    · simp [searchOf, hsearch, hi, hb, hl] at hnames
  · have heq : entry = ("status", entry.2) := Prod.ext hkey rfl
    rw [heq, paramNames_status] at hnames
    have hl := (plain_serverKeys "status" (by simp)).2.2
    rcases hnames with hnames | ⟨names, hnames, -⟩
    · rw [List.mem_singleton.mp hnames] at hrefused
      exact halike.status (by simp [hstatus]) hrefused
    · simp [searchOf, hl] at hnames
  · have heq : entry = ("orderby", entry.2) := Prod.ext hkey rfl
    rw [heq, paramNames_orderby] at hnames
    have hl := (plain_serverKeys "orderby" (by simp)).2.2
    rcases hnames with hnames | ⟨names, hnames, -⟩
    · by_cases hfield : sortField params = some name
      · obtain ⟨typed, htyped, htrim⟩ : ∃ typed, params.sortBy = some typed ∧ trim typed = name := by
          simpa using (Option.filter_eq_some_iff.mp hfield).1
        have hnamed : ("sort_by", typed) ∈ namedColumns params :=
          List.mem_append_right _ (by simp [htyped])
        exact hclear hnamed (by rw [htrim, trim_of_sanitize hspace hs])
      · exact halike.sortBy _ hsort name hnames hfield hrefused
    · simp [searchOf, hl] at hnames

/-- A request without a refusal whose two readings agree on the refused columns keeps them out of the
statement. Where it keeps them out, with no allow-list of fields, the readings agree. -/
theorem gate_keeps_out (hspace : WhitespaceApart U) (D : DeclaredColumns U toUppercase E)
    {paged : Bool} {route : ListRoute} (hgate : queryRefusals U E params paged caller = [])
    (hwalk : walk.Perm (route.filters params)) {columnTypes : ColumnTypes}
    {allowedFields : Option (List String)} {q : QueryFilter}
    (hparse : parseFilters U walk columnTypes allowedFields = .ok q) :
    (ReadAlike U E caller (D.refused caller) params walk (route.columns params) →
      KeepsOut (D.refused caller) q (route.columns params)) ∧
    (allowedFields = none → KeepsOut (D.refused caller) q (route.columns params) →
      ReadAlike U E caller (D.refused caller) params walk (route.columns params)) := by
  have hcols := parseFilters_columns hparse
  have hsnake {column : String} (h : column ∈ D.refused caller) : SnakeCase U column := by
    refine D.snakeCase column ?_
    rcases List.mem_append.mp h with h | h
    · exact List.mem_append_left _ h
    · obtain ⟨g, hg, rfl⟩ := List.mem_map.mp h
      exact List.mem_append_right _ (List.mem_map_of_mem (List.mem_of_mem_filter hg))
  have hparen {column : String} (h : column ∈ D.refused caller) : '(' ∉ column.toList :=
    not_mem_of_snakeCase (hsnake h) (by decide) (by decide) (by decide)
  constructor
  · intro halike column hcolumn
    refine ⟨fun sql hsql hnames => ?_, fun hown => ?_⟩
    · obtain ⟨name, hname, hspells⟩ := hcols.of_column sql hsql
      rw [hspells.namesColumn_iff (hparen hcolumn)] at hnames
      obtain ⟨field, hs, -⟩ := hspells
      exact not_refused_of_spells hspace hgate hwalk halike hname hs (hnames ▸ hcolumn)
    · obtain ⟨named, hnamed, heq⟩ := mem_namedColumns_of_own (hsnake hcolumn) hown
      have := not_gateRefuses_of_no_refusal hgate hnamed
      rw [heq, halike.own column hown hcolumn] at this
      cases this
  · intro hallow hkeeps
    have hread {name : String} (hname : name ∈ readNames walk) :
        toSnakeCase U name ∉ D.refused caller := by
      intro hrefused
      obtain ⟨sql, hsql, hspells⟩ := hcols.of_name hallow name hname
      exact (hkeeps _ hrefused).1 sql hsql ((hspells.namesColumn_iff (hparen hrefused)).mpr rfl)
    have hmem {entry : String × String} (h : entry ∈ route.filters params) : entry ∈ walk :=
      hwalk.mem_iff.mpr h
    refine ⟨fun hstatus => ?_, fun entry hentry hclient hsort _ name hname => ?_,
      fun orderby horderby name hname _ => ?_, fun name hname h => absurd h (hread hname),
      fun name hname h => absurd hname (hkeeps name h).2⟩
    · obtain ⟨status, hstatus⟩ := Option.isSome_iff_exists.mp hstatus
      refine hread (mem_readNames_of_param (hmem (status_mem_filters hstatus route)) ?_)
      rw [paramNames_status]
      exact List.mem_singleton_self _
    · have hkey : isInternalKey entry.1 = false := by
        rcases of_mem_filters (hwalk.mem_iff.mp hentry) with
          ⟨-, hkey⟩ | hkey | ⟨-, hkey⟩ | ⟨-, hkey⟩
        · exact hkey
        all_goals
          rw [hkey]
          exact (plain_serverKeys _ (by simp)).1
      refine hread (mem_readNames_of_param hentry ?_)
      rwa [paramNames_of_isSortKey hsort hkey]
    · refine hread (mem_readNames_of_param (hmem (orderby_mem_filters horderby route)) ?_)
      rwa [paramNames_orderby]

end Passes

/-! ## A session's token digest -/

/-- `char::to_uppercase` on ASCII. -/
def asciiUpper (c : Char) : List Char := [c.toUpper]

/-- An entity whose token digest never leaves the server, and whose address only some may read. -/
def sessions : EntityMeta where
  secretFields := ["tokenHash"]
  fieldPermissions := [("ipAddress", "session:audit")]

def sessionColumns : DeclaredColumns asciiTables asciiUpper sessions where
  secret := ["token_hash"]
  gated := [("ip_address", "session:audit")]
  secret_fields := by decide +kernel
  field_permissions := by decide +kernel
  snakeCase := by decide +kernel

/-- A sorted and filtered request that names nothing refused. -/
def newestSessions : ListQueryParams where
  filters := [("orderby", "createdAt:desc"), ("userName[startwith]", "a")]

/-- What the gate lets by of it names no refused column. -/
theorem gate_keeps_out_newestSessions :
    KeepsOut (sessionColumns.refused none) {
      conditions := [⟨"user_name", .startsWith, .single "a", .and, none⟩]
      sorts := [⟨"(metadata->>'created_at')::timestamptz", .desc⟩] } [] := by
  have hgate : queryRefusals asciiTables sessions newestSessions true none = [] := by
    decide +kernel
  have hparse : parseFilters asciiTables (ListRoute.list.filters newestSessions) [] none = .ok {
      conditions := [⟨"user_name", .startsWith, .single "a", .and, none⟩]
      sorts := [⟨"(metadata->>'created_at')::timestamptz", .desc⟩] } := by decide +kernel
  have hsort : typedSort newestSessions = none := rfl
  refine (gate_keeps_out whitespaceApart_asciiTables sessionColumns hgate (.refl _) hparse).1
    ⟨nofun, by decide +kernel, fun orderby h => ?_, by decide +kernel, nofun⟩
  rw [hsort] at h
  cases h

/-- A direction behind a colon takes a secret column past the gate. -/
theorem suffixed_sort_passes_gate :
    ∃ q, queryRefusals asciiTables sessions { filters := [("orderby", "tokenHash:desc")] } true
        none = [] ∧
      parseFilters asciiTables (repositoryFilters { filters := [("orderby", "tokenHash:desc")] })
        [] none = .ok q ∧
      ¬ KeepsOut (sessionColumns.refused none) q [] := by
  refine ⟨{ sorts := [⟨"token_hash", .desc⟩] }, by decide +kernel, by decide +kernel, fun h => ?_⟩
  exact (h "token_hash" (by decide +kernel)).1 "token_hash" (by decide +kernel)
    (namesColumn_self _)

end Backbone.Core
