import Backbone.Orm.EnumValues

/-!
# Filters on the company column

A company-fenced entity strips a client's filters on the company column before the parser sees them.
The stripper compares a key with the column and its camelCase spelling, ignoring ASCII letter case;
the parser folds a name to snake case, character by character. The fold reaches the column from
spellings the stripper does not know, and the stripper knows some that do not fold to the column.

Reference: `backbone-orm/src/generic_repository.rs`, `backbone-orm/src/filter/{parser,validation}.rs`.
-/

namespace Backbone.Orm

open Text

/-! ## The stripper -/

/-- The loop of `snake_to_camel`; `upper` behind an underscore. -/
def camelFrom (upper : Bool) : List Char → List Char
  | [] => []
  | c :: cs =>
    if c == '_' then camelFrom true cs
    else if upper then c.toUpper :: camelFrom false cs
    else c :: camelFrom upper cs

/-- `snake_to_camel`. -/
def snakeToCamel (s : String) : String := String.ofList (camelFrom false s.toList)

/-- A key up to its first bracket. -/
def baseOf (key : String) : String := (split key '[').head?.getD key

/-- A key speaks about the company column, as far as the stripper can tell. -/
def speaksOf (column key : String) : Bool :=
  eqIgnoreAsciiCase (baseOf key) column || eqIgnoreAsciiCase (baseOf key) (snakeToCamel column)

/-- Remove any caller-supplied filter on the company column. -/
def stripClientCompanyFilters (companyField : Option String) (filters : List (String × String)) :
    List (String × String) :=
  match companyField with
  | none => filters
  | some column => filters.filter fun x => !speaksOf column x.1

/-! ## Letters -/

theorem toLower_ascii {c : Char} (hc : c.toNat < 128) :
    c.toLower.toUpper.toLower = c.toLower ∧ c.toLower.toLower = c.toLower ∧
      (c.toLower = '_' ↔ c = '_') ∧ (c.isUpper = true → c ≠ '_') := by
  refine @ascii_forall (fun c => c.toLower.toUpper.toLower = c.toLower ∧
    c.toLower.toLower = c.toLower ∧ (c.toLower = '_' ↔ c = '_') ∧
      (c.isUpper = true → c ≠ '_')) ?_ c hc
  decide +kernel

/-! ## The fold on ASCII names -/

section Fold

variable {cs : List Char} (hcs : ∀ c ∈ cs, c.toNat < 128) (first : Bool)

theorem snakeFrom_cons (c : Char) (cs : List Char) :
    snakeFrom asciiTables first (c :: cs) =
      (if c.isUpper && !first then ['_'] else []) ++ c.toLower :: snakeFrom asciiTables false cs :=
  rfl

/-- Without a capital past the first letter the fold only lowers. -/
theorem snakeFrom_of_noCapital (h : ∀ c ∈ (if first then cs.tail else cs),
    c.isUpper = false) : snakeFrom asciiTables first cs = cs.map Char.toLower := by
  induction cs generalizing first with
  | nil => rfl
  | cons c cs ih =>
    have hrest : snakeFrom asciiTables false cs = cs.map Char.toLower := by
      refine ih false fun d hd => h d ?_
      cases first with
      | true => exact hd
      | false => exact List.mem_cons_of_mem _ hd
    have hfirst : (c.isUpper && !first) = false := by
      cases first with
      | true => simp
      | false => simp [h c List.mem_cons_self]
    rw [snakeFrom_cons, hfirst, hrest]
    rfl

include hcs

/-- Without an underscore the camelCase spelling of the fold is the name again. -/
theorem camelFrom_snakeFrom (h : '_' ∉ cs) :
    (camelFrom false (snakeFrom asciiTables first cs)).map Char.toLower = cs.map Char.toLower := by
  induction cs generalizing first with
  | nil => rfl
  | cons c cs ih =>
    obtain ⟨hup, hlow, hunder, -⟩ := toLower_ascii (hcs c List.mem_cons_self)
    have hrest := ih (fun d hd => hcs d (List.mem_cons_of_mem _ hd)) false
      (fun hmem => h (List.mem_cons_of_mem _ hmem))
    have hc : (c.toLower == '_') = false := by
      rw [beq_eq_false_iff_ne]
      exact fun heq => h (hunder.mp heq ▸ List.mem_cons_self)
    rw [snakeFrom_cons]
    split
    · simp [camelFrom, hc, hrest, hup]
    · simp [camelFrom, hc, hrest, hlow]

/-- The underscores of the fold are those of the name and one for each capital. -/
theorem count_snakeFrom :
    (snakeFrom asciiTables false cs).count '_' = cs.count '_' + cs.countP Char.isUpper := by
  induction cs with
  | nil => rfl
  | cons c cs ih =>
    obtain ⟨-, -, hunder, hupper⟩ := toLower_ascii (hcs c List.mem_cons_self)
    have hrest := ih fun d hd => hcs d (List.mem_cons_of_mem _ hd)
    rw [snakeFrom_cons, List.count_append, List.count_cons, List.count_cons, List.countP_cons, hrest]
    by_cases hc : c = '_'
    · subst hc
      simp
      omega
    · have hlow : c.toLower ≠ '_' := fun heq => hc (hunder.mp heq)
      cases hup : c.isUpper
      · simp [hc, hlow]
      · simp [hc, hlow]
        omega

end Fold

/-! ## The spellings the stripper knows -/

/-- A column in snake case. -/
def SnakeColumn (column : String) : Prop :=
  ∀ c ∈ column.toList, c.isLower || c.isDigit || c == '_'

/-- A name without the characters and without the mixed spellings that only the fold knows. -/
structure PlainName (U : CharTables) (column name : String) : Prop where
  /-- No character outside ASCII is lowered into it. -/
  lowered : ∀ c ∈ name.toList, 128 ≤ c.toNat → 128 ≤ (U.lowerFirst c).toNat
  /-- The column has one underscore at most, or the name has either none or no capital past its first
  letter. -/
  unmixed : column.toList.count '_' ≤ 1 ∨ '_' ∉ name.toList ∨
    ∀ c ∈ name.toList.tail, c.isUpper = false

section Stripper

variable {U : CharTables} {columnTypes : ColumnTypes} {allowedFields : Option (List String)}
  {column : String} {key : String} {name : String} {x : String × String}

theorem SnakeColumn.ascii (h : SnakeColumn column) : ∀ c ∈ column.toList, c.toNat < 128 := by
  intro c hc
  have hcases := h c hc
  rw [Bool.or_eq_true, Bool.or_eq_true, isLower_iff, isDigit_iff, beq_iff_eq] at hcases
  rcases hcases with (hlower | hdigit) | rfl
  · omega
  · omega
  · decide

theorem SnakeColumn.not_mem (h : SnakeColumn column) : '(' ∉ column.toList :=
  fun hmem => absurd (h _ hmem) (by decide)

theorem lowerFirst_mem_snakeFrom {cs : List Char} {c : Char} (hc : c ∈ cs) (first : Bool) :
    U.lowerFirst c ∈ snakeFrom U first cs := by
  induction cs generalizing first with
  | nil => cases hc
  | cons d cs ih =>
    rw [snakeFrom, List.mem_append]
    rcases List.mem_cons.mp hc with rfl | hc
    · exact .inr List.mem_cons_self
    · exact .inr (List.mem_cons_of_mem _ (ih hc false))

/-- A plain name that folds to the column is the column or its camelCase spelling, but for ASCII
letter case. -/
theorem spelled_of_fold (hcase : AsciiCase U) (hcolumn : SnakeColumn column)
    (hplain : PlainName U column name) (hfold : toSnakeCase U name = column) :
    eqIgnoreAsciiCase name column = true ∨ eqIgnoreAsciiCase name (snakeToCamel column) = true := by
  have hlist : snakeFrom U true name.toList = column.toList := by
    rw [← hfold, toSnakeCase, String.toList_ofList]
  have hascii : ∀ c ∈ name.toList, c.toNat < 128 := by
    intro c hc
    by_contra hbig
    have hmem := lowerFirst_mem_snakeFrom (U := U) hc true
    rw [hlist] at hmem
    have := hcolumn.ascii _ hmem
    have := hplain.lowered c hc (by omega)
    omega
  rw [snakeFrom_ascii hcase hascii] at hlist
  by_cases hcapital : ∀ c ∈ name.toList.tail, c.isUpper = false
  · left
    rw [snakeFrom_of_noCapital true hcapital] at hlist
    have hlower : (name.toList.map Char.toLower).map Char.toLower = name.toList.map Char.toLower := by
      rw [List.map_map]
      exact List.map_congr_left fun c hc => (toLower_ascii (hascii c hc)).2.1
    rw [eqIgnoreAsciiCase, beq_iff_eq, toAsciiLowercase, toAsciiLowercase, ← hlist, hlower]
  · by_cases hunder : '_' ∈ name.toList
    · -- An underscore and a capital make two underscores.
      exfalso
      have hcount := hplain.unmixed.resolve_right (by tauto)
      obtain ⟨c, rest, hname⟩ := List.exists_cons_of_ne_nil (List.ne_nil_of_mem hunder)
      rw [hname] at hlist hcapital hunder hascii
      have hrest := count_snakeFrom fun d hd => hascii d (List.mem_cons_of_mem _ hd)
      rw [← hlist, snakeFrom_cons, List.count_append, List.count_cons, hrest] at hcount
      have hupper : 0 < rest.countP Char.isUpper := by
        rw [List.countP_pos_iff]
        simpa using hcapital
      rcases List.mem_cons.mp hunder with rfl | hmem
      · have hone : (if Char.toLower '_' == '_' then 1 else 0) = 1 := rfl
        rw [hone] at hcount
        omega
      · have := List.count_pos_iff.mpr hmem
        omega
    · right
      have hcamel := camelFrom_snakeFrom hascii true hunder
      rw [hlist] at hcamel
      rw [eqIgnoreAsciiCase, beq_iff_eq, toAsciiLowercase, toAsciiLowercase, snakeToCamel,
        String.toList_ofList, hcamel]

/-! ## Keys -/

theorem head?_splitOn (c : Char) (l : List Char) :
    (l.splitOn c).head? = some (l.takeWhile (· != c)) := by
  induction l with
  | nil => rfl
  | cons d l ih =>
    rw [List.splitOn_cons_eq_if_modifyHead]
    by_cases hd : d = c
    · simp [hd]
    · obtain ⟨part, parts, hparts⟩ := List.exists_cons_of_ne_nil (List.splitOn_ne_nil c l)
      rw [hparts] at ih ⊢
      simpa [hd] using ih

theorem baseOf_eq (key : String) : baseOf key = String.ofList (key.toList.takeWhile (· != '[')) := by
  simp [baseOf, split, head?_splitOn]

theorem baseOf_of_bracketOf_none (h : bracketOf key = none) : baseOf key = key := by
  unfold bracketOf splitOnce at h
  split at h
  · cases h
  · rename_i hdrop
    have hall := List.takeWhile_append_dropWhile (p := (· != '[')) (l := key.toList)
    rw [hdrop, List.append_nil] at hall
    rw [baseOf_eq, hall, String.ofList_toList]

theorem baseOf_of_bracketOf {b : String × String} (h : bracketOf key = some b) :
    baseOf key = b.1 := by
  unfold bracketOf splitOnce at h
  split at h
  · cases h
    exact baseOf_eq key
  · cases h

/-- A key filters on what stands before its first bracket. -/
theorem baseOf_of_filterOf {operatorStr : Option String}
    (h : filterOf key = some (name, operatorStr)) : baseOf key = name := by
  unfold filterOf at h
  split at h
  · cases h
  · cases hb : bracketOf key with
    | none =>
      rw [hb] at h
      dsimp only at h
      split at h
      · cases h
      · cases h
        exact baseOf_of_bracketOf_none hb
    | some b =>
      rw [hb] at h
      dsimp only at h
      split at h
      · cases h
      · cases h
        exact baseOf_of_bracketOf hb

/-- The column of a parameter's condition is spelled by its key. -/
theorem conditionOf_spells {c : FilterCondition}
    (h : conditionOf U columnTypes allowedFields x = some c) : Spells U (baseOf x.1) c.field := by
  obtain ⟨name, operatorStr, field, hf, hs, -, hc⟩ := conditionOf_eq_some.mp h
  refine ⟨field, (baseOf_of_filterOf hf).symm ▸ hs, ?_⟩
  rcases operatorCondition_eq_some hc with rfl | ⟨op, isArray, rfl⟩
  · exact namesColumn_self field
  · exact namesColumn_fieldSql field

theorem mem_strip {params : List (String × String)} :
    x ∈ stripClientCompanyFilters (some column) params ↔ x ∈ params ∧ speaksOf column x.1 = false := by
  simp [stripClientCompanyFilters]

/-- Once a client's filters are stripped, a condition of the filter is on the company column only for a
key that is not plain; and a parameter is stripped exactly when its key is the column or its camelCase
spelling, but for ASCII letter case. -/
theorem company_filters_stripped (hcase : AsciiCase U) {column : String}
    (hcolumn : SnakeColumn column) {params : List (String × String)} {q : QueryFilter}
    (h : parseFilters U (stripClientCompanyFilters (some column) params) columnTypes allowedFields =
      .ok q) :
    (∀ c ∈ q.conditions, NamesColumn column c.field →
        ∃ x ∈ params, conditionOf U columnTypes allowedFields x = some c ∧
          ¬ PlainName U column (baseOf x.1)) ∧
      ∀ x ∈ params, x ∈ stripClientCompanyFilters (some column) params ↔
        ¬ (toAsciiLowercase (baseOf x.1) = toAsciiLowercase column ∨
          toAsciiLowercase (baseOf x.1) = toAsciiLowercase (snakeToCamel column)) := by
  constructor
  · intro c hc hnames
    obtain ⟨x, hx, hcx⟩ := (mem_conditions_iff h).mp hc
    obtain ⟨hmem, hspeaks⟩ := mem_strip.mp hx
    refine ⟨x, hmem, hcx, fun hplain => ?_⟩
    have hfold := ((conditionOf_spells hcx).namesColumn_iff hcolumn.not_mem).mp hnames
    have hspelled := spelled_of_fold hcase hcolumn hplain hfold
    rw [speaksOf, Bool.or_eq_false_iff] at hspeaks
    rcases hspelled with hspelled | hspelled
    · rw [hspeaks.1] at hspelled
      cases hspelled
    · rw [hspeaks.2] at hspelled
      cases hspelled
  · intro x hx
    rw [mem_strip, and_iff_right hx, speaksOf, Bool.or_eq_false_iff, not_or, eqIgnoreAsciiCase,
      eqIgnoreAsciiCase, beq_eq_false_iff_ne, beq_eq_false_iff_ne]

/-- A filter on the company column among others. -/
theorem company_filters_stripped_companyId :
    (∀ c ∈ [(⟨"status", .equal, .single "open", .and, none⟩ : FilterCondition)],
        NamesColumn "company_id" c.field →
          ∃ x ∈ [("companyId[ne]", "7"), ("status", "open")], conditionOf asciiTables [] none x = some c ∧
            ¬ PlainName asciiTables "company_id" (baseOf x.1)) ∧
      ∀ x ∈ [("companyId[ne]", "7"), ("status", "open")],
        x ∈ stripClientCompanyFilters (some "company_id") [("companyId[ne]", "7"), ("status", "open")] ↔
          ¬ (toAsciiLowercase (baseOf x.1) = toAsciiLowercase "company_id" ∨
            toAsciiLowercase (baseOf x.1) = toAsciiLowercase (snakeToCamel "company_id")) :=
  @company_filters_stripped asciiTables [] none asciiCase_asciiTables "company_id"
    (List.all_eq_true.mp (by decide)) [("companyId[ne]", "7"), ("status", "open")]
    { conditions := [⟨"status", .equal, .single "open", .and, none⟩] } (by decide)

/-! ## Spellings it does not know -/

/-- The ASCII tables with the capital dotted I, which Unicode lowers to an `i` and a combining dot. -/
def dottedTables : CharTables where
  isAlphanumeric c := c.isAlphanum || c == 'İ'
  isUppercase c := c.isUpper || c == 'İ'
  toLowercase c := if c == 'İ' then ['i', '\u0307'] else [c.toLower]
  alphanumeric_ascii c hc := by
    have hne : c ≠ 'İ' := by
      rintro rfl
      exact absurd hc (by decide)
    simp [hne]
  lowercase_head c d h := by
    by_cases hc : c = 'İ'
    · subst hc
      cases h
      exact .inr (by decide)
    · rw [if_neg (by simpa using hc)] at h
      rcases asciiTables.lowercase_head c d h with heq | halnum
      · exact .inl heq
      · exact .inr (Bool.or_eq_true_iff.mpr (.inl halnum))

/-- A dotted I, or a camelCase half of a column with two underscores, reaches the company column past
the stripper; and `COMPANY_ID`, which folds to another column, is stripped. -/
theorem not_company_filters :
    ¬ (∀ (column : String) (params : List (String × String)) (q : QueryFilter), SnakeColumn column →
        parseFilters dottedTables (stripClientCompanyFilters (some column) params) [] none = .ok q →
          ∀ c ∈ q.conditions, ¬ NamesColumn column c.field) ∧
      ¬ (∀ (column : String) (params : List (String × String)) (q : QueryFilter), SnakeColumn column →
        parseFilters asciiTables (stripClientCompanyFilters (some column) params) [] none = .ok q →
          ∀ c ∈ q.conditions, ¬ NamesColumn column c.field) ∧
      ¬ ∀ (column : String) (params : List (String × String)), SnakeColumn column →
        ∀ x ∈ params, toSnakeCase asciiTables (baseOf x.1) ≠ column →
          x ∈ stripClientCompanyFilters (some column) params := by
  refine ⟨fun hall => ?_, fun hall => ?_, fun hall => ?_⟩
  · exact hall "company_id" [("companyİd", "7")]
      { conditions := [⟨"company_id", .equal, .single "7", .and, none⟩] }
      (List.all_eq_true.mp (by decide)) (by decide) _ List.mem_cons_self (.inl rfl)
  · exact hall "owner_company_id" [("owner_companyId", "7")]
      { conditions := [⟨"owner_company_id", .equal, .single "7", .and, none⟩] }
      (List.all_eq_true.mp (by decide)) (by decide) _ List.mem_cons_self (.inl rfl)
  · have hkept := hall "company_id" [("COMPANY_ID", "7")] (List.all_eq_true.mp (by decide))
      ("COMPANY_ID", "7") List.mem_cons_self (by decide)
    exact absurd hkept (by decide)

end Stripper

end Backbone.Orm
