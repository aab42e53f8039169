import Backbone.Orm.ParamEffects

/-!
# Values of user-defined types

Two lists of PostgreSQL's own types decide about a column's type hint. `isCustomEnumType` looks into
the parser's and says whether a filter's value is folded to snake case; `isBuiltinType` looks into
the condition's and says whether the type is resolved without a schema. They do not agree: a hint
such as `character varying` is built in for the one and an enum for the other.

Reference: `backbone-orm/src/filter/{parser,condition}.rs`.
-/

namespace Backbone.Orm

open Text

/-- The types PostgreSQL resolves anywhere, with no schema. -/
def builtinTypeNames : List String :=
  ["uuid", "boolean", "bool", "smallint", "int2", "integer", "int", "int4", "bigint", "int8",
    "numeric", "decimal", "real", "float4", "double precision", "float8", "date", "interval",
    "inet", "cidr", "macaddr", "time", "timetz", "timestamp", "timestamptz", "text", "varchar",
    "character varying", "char", "character", "json", "jsonb", "bytea"]

/-- A type PostgreSQL resolves anywhere, with no schema. Anything else named bare is a user-defined
type that needs its schema. -/
def isBuiltinType (typeName : String) : Bool :=
  builtinTypeNames.contains (toAsciiLowercase (trim typeName))

/-- Whether this condition's cast names a user-defined type without its schema. -/
def FilterCondition.needsTypeQualification (c : FilterCondition) : Bool :=
  c.columnType.any fun t => !contains t '.' && !isBuiltinType t

/-- The field a parameter filters on, sanitized and allowed. -/
def filteredField (U : CharTables) (allowedFields : Option (List String))
    (param : String × String) : Option String :=
  (filterOf param.1).bind fun f => (sanitizeFieldName U f.1).filter (allows allowedFields)

/-- Is the value of a parameter read as a list? -/
def isListed (param : String × String) : Bool :=
  match filterOf param.1 with
  | some (_, some operatorStr) =>
    (FilterOperator.fromStr operatorStr).any fun op => decide (op ∈ listOperators)
  | some (_, none) => contains param.2 ','
  | none => false

/-- The fold to snake case leaves each value of a parameter alone. -/
def FoldFixes (U : CharTables) (param : String × String) : Prop :=
  ∀ v ∈ split param.2 ',',
    let folded := toSnakeCase U (if contains param.2 ',' then trim v else v)
    if isListed param then trim folded = trim v else folded = v

section Values

variable {U : CharTables} {columnTypes : ColumnTypes} {allowedFields : Option (List String)}
  {x : String × String} {field : String}

/-! ## The value of a condition -/

theorem fromStr_or {operatorStr : String}
    (h : toAsciiLowercase operatorStr = "or" ∨ toAsciiLowercase operatorStr = "orwhere") :
    FilterOperator.fromStr operatorStr = some .or := by
  rcases h with h | h <;> simp [FilterOperator.fromStr, h]

/-- A condition holds the parameter's value, folded when the hint asks for it. -/
theorem conditionOf_value {c : FilterCondition}
    (hfield : filteredField U allowedFields x = some field)
    (h : conditionOf U columnTypes allowedFields x = some c) :
    c.value = .fromString (filterValue U columnTypes field x.2) (isListed x) := by
  obtain ⟨name, operatorStr, field', hf, hs, hallow, hc⟩ := conditionOf_eq_some.mp h
  obtain rfl : field' = field := by
    simpa [filteredField, hf, hs, Option.filter, hallow] using hfield
  cases operatorStr with
  | none =>
    cases hc
    simp only [isListed, hf]
    rfl
  | some operatorStr =>
    simp only [operatorCondition] at hc
    simp only [isListed, hf]
    split at hc
    · rename_i hor
      cases hc
      rw [fromStr_or hor]
      rfl
    · obtain ⟨op, hop, rfl⟩ := Option.map_eq_some_iff.mp hc
      rw [hop]
      rfl

/-- An accepted parameter that filters on a field has its condition. -/
theorem exists_conditionOf {e : Parsed}
    (hfield : filteredField U allowedFields x = some field)
    (h : asks U columnTypes allowedFields x = .ok e) :
    ∃ c, conditionOf U columnTypes allowedFields x = some c := by
  obtain ⟨⟨name, operatorStr⟩, hf, hfilter⟩ := Option.bind_eq_some_iff.mp hfield
  obtain ⟨hs, hallow⟩ := Option.filter_eq_some_iff.mp hfilter
  rw [conditionOf_of_filterOf hf hs, if_pos hallow]
  cases operatorStr with
  | none => exact ⟨_, rfl⟩
  | some operatorStr =>
    obtain ⟨hkey, rest, hb, rfl, hsort, horder⟩ := filterOf_eq_bracket hf
    -- An operator the parser does not know refuses the request.
    have hknown : ∃ op, FilterOperator.fromStr (String.ofList rest.toList.dropLast) = some op := by
      simp only [asks, parseParam, hkey, hb, Bool.false_eq_true, if_false] at h
      split at h
      · obtain ⟨field', hfield', hok⟩ := bind_eq_ok.mp h
        obtain rfl : field = field' := Option.some.inj (hs.symm.trans (fieldOf_ok hfield'))
        have hsort' : (eqIgnoreAsciiCase name "orderby" || eqIgnoreAsciiCase name "sort") =
          false := hsort
        simp only [hallow, hsort', Bool.not_true, Bool.false_eq_true, if_false] at hok
        unfold parseOperator at hok
        split at hok
        · rename_i hs
          exact absurd hs horder
        · rename_i hs
          exact ⟨.or, fromStr_or (.inl hs)⟩
        · rename_i hs
          exact ⟨.or, fromStr_or (.inr hs)⟩
        · split at hok
          · rename_i op hop
            exact ⟨op, hop⟩
          · cases hok
      · cases h
    obtain ⟨op, hop⟩ := hknown
    simp only [operatorCondition, hop, Option.map_some]
    split <;> exact ⟨_, rfl⟩

/-! ## The fold -/

theorem split_injective {s t : String} {c : Char} (h : split s c = split t c) : s = t := by
  have hlists : s.toList.splitOn c = t.toList.splitOn c :=
    List.map_injective_iff.mpr (fun a b hab => String.ofList_injective hab) h
  have hs := @List.intercalate_splitOn _ s.toList _ _ c
  rw [hlists, List.intercalate_splitOn] at hs
  exact String.toList_inj.mp hs.symm

/-- A value reads as it was sent exactly when the fold leaves it alone. -/
theorem fromString_normalize_iff :
    FilterValue.fromString (normalizeEnumValue U x.2) (isListed x) =
        .fromString x.2 (isListed x) ↔ FoldFixes U x := by
  unfold FoldFixes
  cases isListed x with
  | true =>
    simp only [FilterValue.fromString, if_true, FilterValue.multiple.injEq, split_normalizeEnumValue,
      List.map_map, List.map_inj_left, Function.comp_apply]
  | false =>
    simp only [FilterValue.fromString, Bool.false_eq_true, if_false, FilterValue.single.injEq]
    constructor
    · intro h v hv
      have hsplit := split_normalizeEnumValue (U := U) x.2
      rw [h] at hsplit
      exact (List.map_inj_left (f := id) |>.mp (by simpa using hsplit) v hv).symm
    · intro h
      refine split_injective (c := ',') ?_
      rw [split_normalizeEnumValue]
      exact (List.map_congr_left h).trans (List.map_id _)

/-! ## Built-in hints -/

variable (U columnTypes allowedFields) in
/-- The parameter filters on a column whose hint names a built-in type. -/
def BuiltinHint (x : String × String) (hint : String) : Prop :=
  ∃ field, filteredField U allowedFields x = some field ∧ columnTypes.lookup field = some hint ∧
    isBuiltinType hint = true

variable (U columnTypes allowedFields) in
/-- Filters on columns of built-in types hold the values the client sent. -/
def ValuesAsSent (params : List (String × String)) (q : QueryFilter) : Prop :=
  ∀ x ∈ params, ∀ hint, BuiltinHint U columnTypes allowedFields x hint →
    ∃ c ∈ q.conditions, conditionOf U columnTypes allowedFields x = some c ∧
      c.value = .fromString x.2 (isListed x)

theorem filterValue_of_hint {hint : String} (h : columnTypes.lookup field = some hint)
    (value : String) :
    filterValue U columnTypes field value =
      if isCustomEnumType U hint then normalizeEnumValue U value else value := by
  rw [filterValue, h]

/-- Values of built-in types are held as they were sent exactly when each hint is on the parser's own
list, or its value is one the fold leaves alone. -/
theorem valuesAsSent_iff {params : List (String × String)} {q : QueryFilter}
    (h : parseFilters U params columnTypes allowedFields = .ok q) :
    ValuesAsSent U columnTypes allowedFields params q ↔
      ∀ x ∈ params, ∀ hint, BuiltinHint U columnTypes allowedFields x hint →
        isCustomEnumType U hint = false ∨ FoldFixes U x := by
  constructor
  · intro hsent x hx hint hhint
    obtain ⟨c, -, hc, hvalue⟩ := hsent x hx hint hhint
    obtain ⟨field, hfield, hlookup, -⟩ := hhint
    rw [conditionOf_value hfield hc, filterValue_of_hint hlookup] at hvalue
    cases hcustom : isCustomEnumType U hint with
    | false => exact .inl rfl
    | true =>
      rw [hcustom, if_pos rfl] at hvalue
      exact .inr (fromString_normalize_iff.mp hvalue)
  · intro hall x hx hint hhint
    have hcases := hall x hx hint hhint
    obtain ⟨field, hfield, hlookup, -⟩ := hhint
    obtain ⟨e, he⟩ := exists_parseFilters_iff.mp ⟨q, h⟩ x hx
    obtain ⟨c, hc⟩ := exists_conditionOf hfield he
    refine ⟨c, (mem_conditions_iff h).mpr ⟨x, hx, hc⟩, hc, ?_⟩
    rw [conditionOf_value hfield hc, filterValue_of_hint hlookup]
    cases hcustom : isCustomEnumType U hint with
    | false => rfl
    | true =>
      rcases hcases with hbuiltin | hfixes
      · rw [hcustom] at hbuiltin
        cases hbuiltin
      · rw [if_pos rfl]
        exact fromString_normalize_iff.mpr hfixes

/-- A lower-case name on a column of type `character varying`. -/
theorem valuesAsSent_iff_lower :
    ValuesAsSent asciiTables [("name", "character varying")] none [("name", "john")]
        { conditions := [⟨"name", .equal, .single "john", .and, some "character varying"⟩] } ↔
      ∀ x ∈ [("name", "john")], ∀ hint,
        BuiltinHint asciiTables [("name", "character varying")] none x hint →
          isCustomEnumType asciiTables hint = false ∨ FoldFixes asciiTables x :=
  valuesAsSent_iff (by decide)

/-- The filter `name=John` on a column of type `character varying` looks for `john`. -/
theorem not_valuesAsSent :
    ¬ ∀ (params : List (String × String)) (columnTypes : ColumnTypes)
      (allowedFields : Option (List String)) (q : QueryFilter),
      parseFilters asciiTables params columnTypes allowedFields = .ok q →
        ValuesAsSent asciiTables columnTypes allowedFields params q := by
  intro hall
  have hsent := hall [("name", "John")] [("name", "character varying")] none
    { conditions := [⟨"name", .equal, .single "john", .and, some "character varying"⟩] } (by decide)
  obtain ⟨c, hc, -, hvalue⟩ := hsent _ List.mem_cons_self "character varying"
    ⟨"name", by decide, by decide, by decide⟩
  rw [List.mem_singleton.mp hc] at hvalue
  revert hvalue
  decide

end Values

end Backbone.Orm
