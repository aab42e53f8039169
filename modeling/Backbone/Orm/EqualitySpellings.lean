import Backbone.Orm.EnumValues

/-!
# Three spellings of an equality

A field is compared with a value by `field=value`, by `field[eq]=value` and, as an alternative, by
`field[or]=value`. The three branches of the parser build the condition anew. They agree but for two
inputs: plain equality cuts a value at its commas and binds the first part, and an alternative reads
an audit timestamp from a column of its own name.

Reference: `backbone-orm/src/filter/{parser,condition}.rs`.
-/

namespace Backbone.Orm

open Text

/-- Two conditions compare the same SQL with the same bound values. -/
def SameComparison (c d : FilterCondition) : Prop :=
  (∀ k, c.sql k = d.sql k) ∧ c.getParams = d.getParams

/-- Two parameters are both refused, or ask for conditions that are related one by one. -/
def Agree (R : FilterCondition → FilterCondition → Prop) :
    Except QueryParamError Parsed → Except QueryParamError Parsed → Prop
  | .ok e, .ok e' => List.Forall₂ R e.conditions e'.conditions
  | .error _, .error _ => True
  | _, _ => False

/-- The parser refuses the field, skips it, or leaves it out. -/
def Unfiltered (U : CharTables) (allowedFields : Option (List String)) (field : String) : Prop :=
  isInternalKey field = true ∨ ∀ name, sanitizeFieldName U field = some name →
    allows allowedFields name = false

section Spellings

variable {U : CharTables} {columnTypes : ColumnTypes} {allowedFields : Option (List String)}
  {name : String} {R : FilterCondition → FilterCondition → Prop} {field : String}

/-! ## The three conditions -/

/-- Plain equality and `eq` compare alike when there is no list to cut. -/
theorem sameComparison_equal_iff (name value : String) :
    SameComparison (filterCondition U columnTypes name value .equal (contains value ','))
        (filterCondition U columnTypes name value .equal false) ↔ contains value ',' = false := by
  constructor
  · rintro ⟨-, hparams⟩
    by_contra hcomma
    rw [Bool.not_eq_false] at hcomma
    have hhead : ((split (filterValue U columnTypes name value) ',').map trim).head?.getD "" =
        filterValue U columnTypes name value := by
      simpa [filterCondition, FilterCondition.getParams, FilterValue.fromString, hcomma] using hparams
    -- The first part holds no comma, and the whole value does.
    obtain ⟨part, parts, hparts⟩ := List.exists_cons_of_ne_nil
      (show split (filterValue U columnTypes name value) ',' ≠ [] by simp [split, List.splitOn_ne_nil])
    have hmem : part ∈ split (filterValue U columnTypes name value) ',' := by simp [hparts]
    rw [hparts, List.map_cons, List.head?_cons, Option.getD_some] at hhead
    rw [← contains_filterValue (U := U) columnTypes name, ← hhead] at hcomma
    exact not_mem_of_mem_split hmem (mem_of_mem_trim (by simpa [contains] using hcomma))
  · intro hcomma
    rw [hcomma]
    exact ⟨fun _ => rfl, rfl⟩

theorem fieldSql_ne_of_audit (h : name ∈ auditMetadataFields) (s t : String) :
    name ++ s ≠ fieldSql name ++ t := by
  intro heq
  have hhead := congrArg (fun s => s.toList.head?) heq
  simp only [auditMetadataFields, List.mem_cons, List.not_mem_nil, or_false] at h
  rcases h with rfl | rfl | rfl <;>
    simp [fieldSql, auditMetadataSqlExpr, auditMetadataFields] at hhead

/-- An alternative compares like `eq` when its field is no audit timestamp. -/
theorem sameComparison_or_iff (name value : String) :
    SameComparison (orCondition U columnTypes name value)
        (filterCondition U columnTypes name value .equal false) ↔ name ∉ auditMetadataFields := by
  constructor
  · rintro ⟨hsql, -⟩ haudit
    have hzero := hsql 0
    rw [FilterCondition.sql_eq, FilterCondition.sql_eq, String.append_assoc,
      String.append_assoc] at hzero
    exact fieldSql_ne_of_audit haudit _ _ hzero
  · intro haudit
    have hexpr : auditMetadataSqlExpr name = none := by simp [auditMetadataSqlExpr, haudit]
    have hcond : filterCondition U columnTypes name value .equal false =
        { orCondition U columnTypes name value with logical := .and } := by
      simp [filterCondition, orCondition, fieldSql, filterCast, hexpr]
    rw [hcond]
    exact ⟨fun _ => rfl, rfl⟩

/-! ## The three parameters -/

/-- The same comparison under the same connective. -/
def SameCondition (c d : FilterCondition) : Prop := SameComparison c d ∧ c.logical = d.logical

/-- The same comparison, as an alternative. -/
def SameAlternative (c d : FilterCondition) : Prop :=
  SameComparison c d ∧ c.logical = .or ∧ d.logical = .and

/-- What a filter with an operator asks for, once its field is sanitized. -/
theorem asks_operator {operatorStr : String} (hb : '[' ∉ field.toList)
    (hkey : isInternalKey field = false) (hword : isKeyword field = false)
    (hname : sanitizeFieldName U field = some name) (value : String) :
    asks U columnTypes allowedFields (bracketKey field operatorStr, value) =
      if allows allowedFields name then
        parseOperator U columnTypes (bracketKey field operatorStr) value name operatorStr {}
      else .ok {} := by
  have hsort : (eqIgnoreAsciiCase field "orderby" || eqIgnoreAsciiCase field "sort") = false := by
    have horder : toAsciiLowercase "orderby" = "orderby" := by decide
    have hsort : toAsciiLowercase "sort" = "sort" := by decide
    simp only [isKeyword, Bool.or_eq_false_iff, decide_eq_false_iff_not, List.mem_cons,
      List.not_mem_nil, or_false, not_or] at hword
    simp [eqIgnoreAsciiCase, horder, hsort, hword.1.1]
  rw [asks_bracketKey hb hkey, parseBracket, fieldOf, hname]
  cases hallow : allows allowedFields name <;> simp [bind, Except.bind, hallow, hsort]

theorem asks_equality_of_name (hb : '[' ∉ field.toList)
    (hkey : isInternalKey field = false) (hword : isKeyword field = false)
    (hname : sanitizeFieldName U field = some name) (value : String) :
    asks U columnTypes allowedFields (field, value) =
      if allows allowedFields name then
        .ok { filter := { conditions :=
          [filterCondition U columnTypes name value .equal (contains value ',')] } }
      else .ok {} := by
  rw [asks_equality hb hkey hword, parseEquality, fieldOf, hname]
  cases hallow : allows allowedFields name <;>
    simp [bind, Except.bind, hallow, QueryFilter.addCondition]

/-- Equalities that filter on nothing agree. -/
theorem agree_of_unfiltered (hb : '[' ∉ field.toList) (hword : isKeyword field = false)
    (h : Unfiltered U allowedFields field) (value : String) {key key' : String}
    (hkeys : ∀ k ∈ [key, key'], k = field ∨ ∃ operatorStr, k = bracketKey field operatorStr) :
    Agree R (asks U columnTypes allowedFields (key, value))
      (asks U columnTypes allowedFields (key', value)) := by
  have hask : (∃ e, ∀ k, k = field ∨ (∃ operatorStr, k = bracketKey field operatorStr) →
        asks U columnTypes allowedFields (k, value) = .ok e ∧ e.conditions = []) ∨
      ∀ k, k = field ∨ (∃ operatorStr, k = bracketKey field operatorStr) →
        ∃ err, asks U columnTypes allowedFields (k, value) = .error err := by
    by_cases hkey : isInternalKey field = true
    · refine .inl ⟨{}, ?_⟩
      rintro k (rfl | ⟨operatorStr, rfl⟩)
      · exact ⟨asks_internal hkey, rfl⟩
      · exact ⟨asks_internal (by rw [isInternalKey_bracketKey, hkey]), rfl⟩
    · rw [Bool.not_eq_true] at hkey
      have hallow := h.resolve_left (by simp [hkey])
      cases hname : sanitizeFieldName U field with
      | some name =>
        refine .inl ⟨{}, ?_⟩
        rintro k (rfl | ⟨operatorStr, rfl⟩)
        · rw [asks_equality_of_name hb hkey hword hname, hallow name hname]
          exact ⟨rfl, rfl⟩
        · rw [asks_operator hb hkey hword hname, hallow name hname]
          exact ⟨rfl, rfl⟩
      | none =>
        refine .inr ?_
        rintro k (rfl | ⟨operatorStr, rfl⟩)
        · rw [asks_equality hb hkey hword, parseEquality, fieldOf, hname]
          exact ⟨_, rfl⟩
        · rw [asks_bracketKey hb hkey, parseBracket, fieldOf, hname]
          exact ⟨_, rfl⟩
  have hfirst := hkeys key List.mem_cons_self
  have hsecond := hkeys key' (List.mem_cons_of_mem _ List.mem_cons_self)
  rcases hask with ⟨e, hask⟩ | hask
  · obtain ⟨h1, hnil⟩ := hask key hfirst
    obtain ⟨h2, -⟩ := hask key' hsecond
    rw [h1, h2]
    simp only [Agree, hnil]
    exact .nil
  · obtain ⟨err, h1⟩ := hask key hfirst
    obtain ⟨err', h2⟩ := hask key' hsecond
    rw [h1, h2]
    trivial

theorem agree_singletons {e e' : Parsed}
    {c d : FilterCondition} (he : e.conditions = [c]) (he' : e'.conditions = [d]) :
    Agree R (.ok e) (.ok e') ↔ R c d := by
  simp [Agree, he, he']

/-- Plain equality agrees with `eq` unless a filtered value holds a comma, and the alternative agrees
with `eq` unless it filters on an audit timestamp. -/
theorem equality_spellings_iff {field : String} (hb : '[' ∉ field.toList)
    (hword : isKeyword field = false) (value : String) :
    (Agree SameCondition (asks U columnTypes allowedFields (field, value))
          (asks U columnTypes allowedFields (bracketKey field "eq", value)) ↔
        Unfiltered U allowedFields field ∨ contains value ',' = false) ∧
      (Agree SameAlternative (asks U columnTypes allowedFields (bracketKey field "or", value))
          (asks U columnTypes allowedFields (bracketKey field "eq", value)) ↔
        Unfiltered U allowedFields field ∨
          ∀ name, sanitizeFieldName U field = some name → name ∉ auditMetadataFields) := by
  by_cases hun : Unfiltered U allowedFields field
  · have hagree {R : FilterCondition → FilterCondition → Prop} {key key' : String} :=
      @agree_of_unfiltered U columnTypes allowedFields R field hb hword hun value key key'
    refine ⟨iff_of_true (hagree ?_) (.inl hun), iff_of_true (hagree ?_) (.inl hun)⟩
    · simp
    · simp
  · obtain ⟨hkey, name, hname, hallow⟩ : isInternalKey field = false ∧
        ∃ name, sanitizeFieldName U field = some name ∧ allows allowedFields name = true := by
      simpa [Unfiltered] using hun
    have heq : asks U columnTypes allowedFields (bracketKey field "eq", value) =
        .ok { filter := { conditions :=
          [filterCondition U columnTypes name value .equal false] } } := by
      rw [asks_operator hb hkey hword hname, if_pos hallow]
      rfl
    have hor : asks U columnTypes allowedFields (bracketKey field "or", value) =
        .ok { orConditions := [orCondition U columnTypes name value] } := by
      rw [asks_operator hb hkey hword hname, if_pos hallow]
      rfl
    have hplain := @asks_equality_of_name U columnTypes allowedFields _ _ hb hkey hword hname value
    rw [if_pos hallow] at hplain
    rw [hplain, heq, hor]
    constructor
    · rw [agree_singletons rfl rfl, or_iff_right hun]
      exact (and_iff_left rfl).trans (sameComparison_equal_iff name value)
    · have hlogical : (orCondition U columnTypes name value).logical = .or ∧
          (filterCondition U columnTypes name value .equal false).logical = .and := ⟨rfl, rfl⟩
      rw [agree_singletons rfl rfl, or_iff_right hun, SameAlternative, and_iff_left hlogical,
        sameComparison_or_iff]
      simp [hname]

/-- A name without a comma. -/
theorem equality_spellings_iff_john :
    (Agree SameCondition (asks asciiTables [] none ("name", "john"))
          (asks asciiTables [] none (bracketKey "name" "eq", "john")) ↔
        Unfiltered asciiTables none "name" ∨ contains "john" ',' = false) ∧
      (Agree SameAlternative (asks asciiTables [] none (bracketKey "name" "or", "john"))
          (asks asciiTables [] none (bracketKey "name" "eq", "john")) ↔
        Unfiltered asciiTables none "name" ∨
          ∀ name, sanitizeFieldName asciiTables "name" = some name → name ∉ auditMetadataFields) :=
  equality_spellings_iff (by decide) (by decide) "john"

/-- `name=Smith, John` looks for `Smith`, and `created_at[or]=2024-01-01` for a column `created_at`. -/
theorem not_equality_spellings :
    ¬ (∀ (field value : String) (columnTypes : ColumnTypes) (allowedFields : Option (List String)),
      '[' ∉ field.toList → isKeyword field = false →
        Agree SameCondition (asks asciiTables columnTypes allowedFields (field, value))
          (asks asciiTables columnTypes allowedFields (bracketKey field "eq", value))) ∧
    ¬ (∀ (field value : String) (columnTypes : ColumnTypes) (allowedFields : Option (List String)),
      '[' ∉ field.toList → isKeyword field = false →
        Agree SameAlternative (asks asciiTables columnTypes allowedFields (bracketKey field "or", value))
          (asks asciiTables columnTypes allowedFields (bracketKey field "eq", value))) := by
  constructor
  · intro hall
    have hcut := hall "name" "Smith, John" [] none (by decide) (by decide)
    have hfirst : asks asciiTables [] none ("name", "Smith, John") = .ok { filter := {
        conditions := [⟨"name", .equal, .multiple ["Smith", "John"], .and, none⟩] } } := by decide
    have hwhole : asks asciiTables [] none (bracketKey "name" "eq", "Smith, John") = .ok { filter := {
        conditions := [⟨"name", .equal, .single "Smith, John", .and, none⟩] } } := by decide
    rw [hfirst, hwhole, agree_singletons rfl rfl] at hcut
    exact absurd hcut.1.2 (by decide)
  · intro hall
    have halt := hall "created_at" "2024-01-01" [] none (by decide) (by decide)
    have hbare : asks asciiTables [] none (bracketKey "created_at" "or", "2024-01-01") = .ok {
        orConditions := [⟨"created_at", .equal, .single "2024-01-01", .or, none⟩] } := by decide
    have hread : asks asciiTables [] none (bracketKey "created_at" "eq", "2024-01-01") = .ok {
        filter := { conditions := [⟨"(metadata->>'created_at')::timestamptz", .equal,
          .single "2024-01-01", .and, some "timestamptz"⟩] } } := by decide
    rw [hbare, hread, agree_singletons rfl rfl] at halt
    exact absurd (halt.1.1 1) (by decide)

end Spellings

end Backbone.Orm
