import Backbone.Orm.ParamEffects

/-!
# The spellings of a sort

A sort on a column is spelled `orderby[column]=direction`, `column[orderby]=direction`,
`orderby=column:direction`, `orderby=column` or `orderby=-column`, and as an element of a comma list.
Each spelling has a branch of its own in the parser, and they do not agree: `orderby[column]` asks the
allow-list for `orderby` and reads an audit timestamp from a column of its own name, and a list
refuses `column:direction`.

Reference: `backbone-orm/src/filter/{parser,error}.rs`.
-/

namespace Backbone.Orm

open Text

/-! ## Spellings -/

/-- A name of letters, digits and underscores. -/
def ColumnName (U : CharTables) (column : String) : Prop :=
  column ≠ "" ∧ ∀ c ∈ column.toList, U.isAlphanumeric c || c == '_'

theorem columnName_of_all {U : CharTables} {column : String} (hne : column ≠ "")
    (h : column.toList.all (fun c => U.isAlphanumeric c || c == '_') = true) :
    ColumnName U column :=
  ⟨hne, List.all_eq_true.mp h⟩

/-- A direction as a parameter's value. -/
def SortDirection.text : SortDirection → String
  | .asc => "asc"
  | .desc => "desc"

/-- A column with the `-` of a descending sort. -/
def SortDirection.signed : SortDirection → String → String
  | .asc, column => column
  | .desc, column => "-" ++ column

/-- All are refused, or all ask for the same: for one sort, or for nothing. -/
def AllAgree (outcomes : List (Except QueryParamError Parsed)) : Prop :=
  (∀ o ∈ outcomes, ∃ e, o = .error e) ∨
    ∃ sort : Option SortSpec, ∀ o ∈ outcomes, o = .ok { filter := { sorts := sort.toList } }

section Spellings

variable (U : CharTables) (columnTypes : ColumnTypes) (allowedFields : Option (List String))

/-- What an element of an `orderby` list asks for. -/
def asksElement (item : String) : Except QueryParamError Parsed :=
  sortPart U "orderby" allowedFields {} item

/-- What the spellings of a sort ask for, but for the list element with a direction behind it. -/
def spellings (column : String) (direction : SortDirection) :
    List (Except QueryParamError Parsed) :=
  [asks U columnTypes allowedFields (bracketKey "orderby" column, direction.text),
    asks U columnTypes allowedFields (bracketKey column "orderby", direction.text),
    asks U columnTypes allowedFields ("orderby", column ++ ":" ++ direction.text),
    asks U columnTypes allowedFields ("orderby", direction.signed column),
    asksElement U allowedFields (direction.signed column)]

/-- What every spelling of a sort asks for. -/
def allSpellings (column : String) (direction : SortDirection) :
    List (Except QueryParamError Parsed) :=
  asksElement U allowedFields (column ++ ":" ++ direction.text) ::
    spellings U columnTypes allowedFields column direction

variable {U columnTypes allowedFields}

theorem asks_single {value : String} (h : contains value ',' = false) :
    asks U columnTypes allowedFields ("orderby", value) =
      sortSingle U "orderby" value allowedFields {} := by
  have hkey : isInternalKey "orderby" = false := by decide
  have hb : bracketOf "orderby" = none := by decide
  have hlower : toAsciiLowercase "orderby" = "orderby" := by decide
  simp only [asks, parseParam, hkey, hb, parsePlain, hlower, h, Bool.false_eq_true, if_false]

/-! ## Names -/

section Names

variable {column : String} (hc : ColumnName U column)
include hc

theorem ColumnName.not_mem {c : Char} (hascii : c.toNat < 128) (hword : c.isAlphanum = false)
    (hne : c ≠ '_') : c ∉ column.toList := by
  intro hmem
  have h := hc.2 c hmem
  rw [U.alphanumeric_ascii c hascii, hword, Bool.false_or, beq_iff_eq] at h
  exact hne h

theorem ColumnName.not_whitespace (hspace : WhitespaceApart U) :
    ∀ c ∈ column.toList, isWhitespace c = false := by
  intro c hmem
  by_contra hc'
  rw [Bool.not_eq_false] at hc'
  have h := hc.2 c hmem
  rw [hspace c hc', Bool.false_or, beq_iff_eq] at h
  rw [h] at hc'
  exact absurd hc' (by decide)

theorem ColumnName.trim_eq (hspace : WhitespaceApart U) : trim column = column :=
  trim_eq_self (hc.not_whitespace hspace)

theorem ColumnName.startsWith_dash : startsWith column "-" = false := by
  have hdash := hc.not_mem (c := '-') (by decide) (by decide) (by decide)
  have htext : "-".toList = ['-'] := rfl
  unfold startsWith
  rw [htext]
  cases hl : column.toList with
  | nil => rfl
  | cons d l =>
    have hne : '-' ≠ d := by
      rintro rfl
      exact hdash (by simp [hl])
    simp [List.isPrefixOf, hne]

end Names

/-! ## What each spelling asks for -/

@[simp] theorem fromStr_text (direction : SortDirection) :
    SortDirection.fromStr direction.text = direction := by
  cases direction <;> decide

theorem not_mem_text {c : Char} (h : c ∉ "ascde".toList) (direction : SortDirection) :
    c ∉ direction.text.toList := by
  intro hmem
  refine h ?_
  cases direction <;> revert hmem <;> simp [SortDirection.text] <;> tauto

theorem not_whitespace_text (direction : SortDirection) :
    ∀ c ∈ direction.text.toList, isWhitespace c = false := by
  have hall : direction.text.toList.all (!isWhitespace ·) = true := by cases direction <;> rfl
  intro c hc
  simpa using List.all_eq_true.mp hall c hc

variable (U allowedFields) in
/-- What `orderby=column` asks for. -/
def plainSort (column : String) (direction : SortDirection) : Except QueryParamError Parsed := do
  let name ← fieldOf U column "orderby"
  .ok (Parsed.sortBy {} allowedFields name (fieldSql name) direction)

section Outcomes

variable {column : String} (hc : ColumnName U column)
include hc

theorem contains_signed (direction : SortDirection) {c : Char} (hascii : c.toNat < 128)
    (hword : c.isAlphanum = false) (hne : c ≠ '_') (hdash : c ≠ '-') :
    contains (direction.signed column) c = false := by
  have hmem := hc.not_mem hascii hword hne
  cases direction <;> simp [contains, SortDirection.signed, hmem, hdash]

theorem trimStartMatches_signed (direction : SortDirection) :
    trimStartMatches (direction.signed column) '-' = column := by
  have hdash := hc.not_mem (c := '-') (by decide) (by decide) (by decide)
  have hself := trimStartMatches_eq_self hdash
  cases direction with
  | asc => exact hself
  | desc =>
    have hdrop : trimStartMatches ("-" ++ column) '-' = trimStartMatches column '-' := by
      simp [trimStartMatches]
    exact hdrop.trans hself

theorem startsWith_signed (direction : SortDirection) :
    (if startsWith (direction.signed column) "-" then SortDirection.desc else .asc) = direction := by
  cases direction with
  | asc => simp [SortDirection.signed, hc.startsWith_dash]
  | desc => simp [SortDirection.signed, startsWith]

variable (hspace : WhitespaceApart U)
include hspace

section

variable (direction : SortDirection)
include direction

theorem asks_signed :
    asks U columnTypes allowedFields ("orderby", direction.signed column) =
      plainSort U allowedFields column direction := by
  have hsuffix : sortSuffix (direction.signed column) = (direction.signed column, none) := by
    rw [sortSuffix, splitOnce_eq_none
      (contains_signed hc direction (by decide) (by decide) (by decide) (by decide))]
  rw [asks_single (contains_signed hc direction (by decide) (by decide) (by decide) (by decide))]
  simp only [sortSingle, hsuffix, trimStartMatches_signed hc, hc.trim_eq hspace, hc.1, if_false,
    Option.getD_none, startsWith_signed hc]
  rfl

theorem asksElement_signed :
    asksElement U allowedFields (direction.signed column) =
      plainSort U allowedFields column direction := by
  have htrim : trim (direction.signed column) = direction.signed column := by
    refine trim_eq_self fun c hmem => ?_
    cases direction with
    | asc => exact hc.not_whitespace hspace c hmem
    | desc =>
      have hmem : c ∈ '-' :: column.toList := by simpa [SortDirection.signed] using hmem
      rcases List.mem_cons.mp hmem with rfl | hmem
      · decide
      · exact hc.not_whitespace hspace c hmem
  have hne : direction.signed column ≠ "" := by
    cases direction <;> simp [SortDirection.signed, hc.1]
  simp only [asksElement, sortPart, htrim, hne, if_false, trimStartMatches_signed hc,
    startsWith_signed hc]
  rfl

theorem asks_suffix :
    asks U columnTypes allowedFields ("orderby", column ++ ":" ++ direction.text) =
      plainSort U allowedFields column direction := by
  have hcolon := hc.not_mem (c := ':') (by decide) (by decide) (by decide)
  have hcomma := hc.not_mem (c := ',') (by decide) (by decide) (by decide)
  have hdash := hc.not_mem (c := '-') (by decide) (by decide) (by decide)
  have hsingle : contains (column ++ ":" ++ direction.text) ',' = false := by
    have htext := not_mem_text (c := ',') (by decide) direction
    simp [contains, hcomma, htext]
  have hsuffix : sortSuffix (column ++ ":" ++ direction.text) = (column, some direction) := by
    have hcut : splitOnce (column ++ ":" ++ direction.text) ':' = some (column, direction.text) :=
      splitOnce_append hcolon direction.text
    rw [sortSuffix, hcut]
    cases direction <;> rfl
  rw [asks_single hsingle]
  simp only [sortSingle, hsuffix, trimStartMatches_eq_self hdash, hc.trim_eq hspace, hc.1, if_false,
    Option.getD_some, hc.startsWith_dash, Bool.false_eq_true]
  rfl

/-- A list refuses an element with a direction behind it. -/
theorem asksElement_suffix :
    ∃ e, asksElement U allowedFields (column ++ ":" ++ direction.text) = .error e := by
  have hitem : (column ++ ":" ++ direction.text).toList =
      column.toList ++ ':' :: direction.text.toList := by simp
  have htrim : trim (column ++ ":" ++ direction.text) = column ++ ":" ++ direction.text := by
    refine trim_eq_self fun c hmem => ?_
    rw [hitem, List.mem_append] at hmem
    rcases hmem with hmem | hmem
    · exact hc.not_whitespace hspace c hmem
    · rcases List.mem_cons.mp hmem with rfl | hmem
      · rfl
      · exact not_whitespace_text direction c hmem
  have hdash : '-' ∉ (column ++ ":" ++ direction.text).toList := by
    have hcolumn := hc.not_mem (c := '-') (by decide) (by decide) (by decide)
    have htext := not_mem_text (c := '-') (by decide) direction
    simp [hcolumn, htext]
  have hne : column ++ ":" ++ direction.text ≠ "" := by
    intro hempty
    have := congrArg String.toList hempty
    rw [hitem] at this
    simp at this
  have hrefused : sanitizeFieldName U (column ++ ":" ++ direction.text) = none := by
    cases hs : sanitizeFieldName U (column ++ ":" ++ direction.text) with
    | none => rfl
    | some name =>
      have hcolon := (word_of_sanitize hs).2 ':' (by rw [hitem]; simp)
      rw [U.alphanumeric_ascii ':' (by decide)] at hcolon
      exact absurd hcolon (by decide)
  simp only [asksElement, sortPart, htrim, hne, if_false, trimStartMatches_eq_self hdash, fieldOf,
    hrefused]
  exact ⟨_, rfl⟩

end

end Outcomes

/-! ## The two bracket spellings -/

theorem sanitize_orderby (hcase : AsciiCase U) : sanitizeFieldName U "orderby" = some "orderby" := by
  have hascii : "orderby".toList.all (·.toNat < 128) = true := by decide
  rw [sanitizeFieldName_ascii hcase fun c hc => by simpa using List.all_eq_true.mp hascii c hc]
  decide

theorem direction_text (direction : SortDirection) :
    (if startsWith (trim direction.text) "-" || eqIgnoreAsciiCase (trim direction.text) "desc" then
      SortDirection.desc else .asc) = direction := by
  cases direction <;> decide

theorem asks_orderbyBracket (hcase : AsciiCase U) (column : String) (direction : SortDirection) :
    asks U columnTypes allowedFields (bracketKey "orderby" column, direction.text) =
      if allows allowedFields "orderby" then
        fieldOf U column (bracketKey "orderby" column) >>= fun name =>
          .ok (Parsed.sortBy {} allowedFields name name direction)
      else .ok {} := by
  have hsort : (eqIgnoreAsciiCase "orderby" "orderby" || eqIgnoreAsciiCase "orderby" "sort") =
      true := by decide
  rw [asks_bracketKey (by decide) (by decide), parseBracket, fieldOf, sanitize_orderby hcase]
  cases hallow : allows allowedFields "orderby" with
  | false => simp [bind, Except.bind, hallow]
  | true =>
    simp only [bind, Except.bind, hallow, hsort, direction_text, Bool.not_true, Bool.false_eq_true, if_false,
      if_true]

variable {column : String}

theorem asks_columnBracket (hcase : AsciiCase U) (hb : '[' ∉ column.toList)
    (direction : SortDirection) :
    asks U columnTypes allowedFields (bracketKey column "orderby", direction.text) =
      if isInternalKey column then .ok {}
      else fieldOf U column (bracketKey column "orderby") >>= fun name =>
        if !allows allowedFields name then .ok {}
        else if isSortKey column then
          .ok (Parsed.sortBy {} allowedFields "orderby" "orderby" direction)
        else .ok { filter := { sorts := [⟨fieldSql name, direction⟩] } } := by
  have horder : toAsciiLowercase "orderby" = "orderby" := by decide
  have hfield : fieldOf U "orderby" (bracketKey column "orderby") = .ok "orderby" := by
    rw [fieldOf, sanitize_orderby hcase]
  cases hkey : isInternalKey column with
  | true => exact asks_internal (by rw [isInternalKey_bracketKey, hkey])
  | false =>
    rw [asks_bracketKey hb hkey, parseBracket]
    cases fieldOf U column (bracketKey column "orderby") with
    | error e => rfl
    | ok name =>
      have hsort : (eqIgnoreAsciiCase column "orderby" || eqIgnoreAsciiCase column "sort") =
          isSortKey column := rfl
      simp only [bind, Except.bind, hsort, hfield, direction_text, parseOperator, horder,
        fromStr_text, QueryFilter.addSort, List.nil_append, Bool.false_eq_true, if_false]

/-! ## Agreement -/

theorem sortBy_empty (field sql : String) (direction : SortDirection) :
    Parsed.sortBy {} allowedFields field sql direction =
      { filter := { sorts := if allows allowedFields field then [⟨sql, direction⟩] else [] } } := by
  unfold Parsed.sortBy
  split <;> rfl

/-- No internal name is a field. -/
theorem sanitize_of_internal (hc : ColumnName U column)
    (hspace : WhitespaceApart U) (h : isInternalKey column = true) :
    sanitizeFieldName U column = none := by
  have htrim : trimStart column = column := by
    cases hl : column.toList with
    | nil => exact absurd (String.toList_eq_nil_iff.mp hl) hc.1
    | cons d l =>
      have hd := hc.not_whitespace hspace d (by simp [hl])
      rw [trimStart, hl, List.dropWhile_cons, if_neg (by simp [hd]), ← hl, String.ofList_toList]
  have hstarts : startsWith column "__" = true := by simpa [isInternalKey, htrim] using h
  simp [sanitizeFieldName, hstarts]

theorem allAgree_iff {a b p : Except QueryParamError Parsed} :
    AllAgree [a, b, p, p, p] ↔
      ((∃ e, a = .error e) ∧ (∃ e, b = .error e) ∧ ∃ e, p = .error e) ∨
        ∃ sort : Option SortSpec, a = .ok { filter := { sorts := sort.toList } } ∧
          b = .ok { filter := { sorts := sort.toList } } ∧
          p = .ok { filter := { sorts := sort.toList } } := by
  simp [AllAgree]

variable (U allowedFields) in
/-- Every spelling of a sort on the column is refused. -/
def RefusedColumn (column : String) : Prop :=
  sanitizeFieldName U column = none ∧ isInternalKey column = false ∧
    allows allowedFields "orderby" = true

variable (U allowedFields) in
/-- A sort on the column is left out in every spelling, or made in every spelling. -/
def SettledColumn (column : String) : Prop :=
  ∃ name, sanitizeFieldName U column = some name ∧
    (allows allowedFields name = false ∨
      allows allowedFields "orderby" = true ∧ name ∉ auditMetadataFields ∧
        (isSortKey column = true → name = "orderby"))

section Agreement

variable {column : String} (hcase : AsciiCase U) (hspace : WhitespaceApart U)
  (hc : ColumnName U column)
include hcase hspace hc

omit hcase in
/-- The outcomes, with the three branches that agree put together. -/
theorem spellings_eq (direction : SortDirection) :
    spellings U columnTypes allowedFields column direction =
      [asks U columnTypes allowedFields (bracketKey "orderby" column, direction.text),
        asks U columnTypes allowedFields (bracketKey column "orderby", direction.text),
        plainSort U allowedFields column direction, plainSort U allowedFields column direction,
        plainSort U allowedFields column direction] := by
  rw [spellings, asks_suffix hc hspace, asks_signed hc hspace, asksElement_signed hc hspace]

theorem spellings_agree_of_refused (direction : SortDirection)
    (hname : sanitizeFieldName U column = none) :
    AllAgree (spellings U columnTypes allowedFields column direction) ↔
      isInternalKey column = false ∧ allows allowedFields "orderby" = true := by
  have hfield (key : String) : ∃ e, fieldOf U column key = .error e := by
    rw [fieldOf, hname]
    exact ⟨_, rfl⟩
  obtain ⟨e, he⟩ := hfield "orderby"
  obtain ⟨e', he'⟩ := hfield (bracketKey "orderby" column)
  obtain ⟨e'', he''⟩ := hfield (bracketKey column "orderby")
  have hb := hc.not_mem (c := '[') (by decide) (by decide) (by decide)
  rw [spellings_eq hspace hc, allAgree_iff, asks_orderbyBracket hcase,
    asks_columnBracket hcase hb, plainSort, he, he', he'']
  cases isInternalKey column <;> cases allows allowedFields "orderby" <;>
    simp [bind, Except.bind]

theorem spellings_agree_of_name (direction : SortDirection) {name : String}
    (hname : sanitizeFieldName U column = some name) :
    AllAgree (spellings U columnTypes allowedFields column direction) ↔
      allows allowedFields name = false ∨
        allows allowedFields "orderby" = true ∧ name ∉ auditMetadataFields ∧
          (isSortKey column = true → name = "orderby") := by
  have hfield (key : String) : fieldOf U column key = .ok name := by rw [fieldOf, hname]
  have hb := hc.not_mem (c := '[') (by decide) (by decide) (by decide)
  have hkey : isInternalKey column = false := by
    rw [← Bool.not_eq_true]
    intro hkey
    rw [sanitize_of_internal hc hspace hkey] at hname
    cases hname
  have haudit : name ∉ auditMetadataFields ↔ name = fieldSql name := by
    refine ⟨fun h => (fieldSql_of_not_audit h).symm, fun h hmem => ?_⟩
    simp only [auditMetadataFields, List.mem_cons, List.not_mem_nil, or_false] at hmem
    rcases hmem with rfl | rfl | rfl <;> revert h <;> decide
  rw [spellings_eq hspace hc, allAgree_iff, asks_orderbyBracket hcase,
    asks_columnBracket hcase hb, plainSort, hfield, hfield, hfield, hkey]
  simp only [bind, Except.bind, sortBy_empty, Bool.false_eq_true, if_false]
  have hok {x : String} {sort : Option SortSpec} :
      (Except.ok { filter := { sorts := [⟨x, direction⟩] } } : Except QueryParamError Parsed) =
        .ok { filter := { sorts := sort.toList } } ↔ sort = some ⟨x, direction⟩ := by
    cases sort with
    | none => simp
    | some sort => simp [eq_comm]
  cases hallow : allows allowedFields name with
  | false =>
    refine iff_of_true (.inr ⟨none, ?_, ?_, ?_⟩) (.inl rfl)
    · split <;> rfl
    · rfl
    · rfl
  | true =>
    cases horder : allows allowedFields "orderby" with
    | false => simp
    | true =>
      simp only [if_true, Bool.not_true, Bool.false_eq_true, if_false]
      constructor
      · rintro (⟨⟨e, he⟩, -⟩ | ⟨sort, hbracket, hcolumn, hplain⟩)
        · cases he
        · have hsort := hok.mp hbracket
          have hsql := hok.mp hplain
          have hself : name = fieldSql name :=
            congrArg SortSpec.field (Option.some.inj (hsort.symm.trans hsql))
          refine .inr ⟨trivial, haudit.mpr hself, fun hkey => ?_⟩
          rw [if_pos hkey] at hcolumn
          exact congrArg SortSpec.field (Option.some.inj (hsort.symm.trans (hok.mp hcolumn)))
      · rintro (hallow' | ⟨-, hna, hkey⟩)
        · cases hallow'
        · have hself := haudit.mp hna
          refine .inr ⟨some ⟨name, direction⟩, rfl, ?_, ?_⟩
          · split
            · rename_i hsortKey
              rw [hkey hsortKey]
              rfl
            · rw [← hself]
              rfl
          · rw [← hself]
            rfl

end Agreement

/-- The spellings of a sort agree only where all are refused: a list refuses an element with a
direction behind it. The others agree where all are refused, and on a column that is left out or
sorted on by its own name in each of them. -/
theorem sort_spellings_iff (hcase : AsciiCase U) (hspace : WhitespaceApart U) {column : String}
    (hc : ColumnName U column) (direction : SortDirection) :
    (AllAgree (allSpellings U columnTypes allowedFields column direction) ↔
        RefusedColumn U allowedFields column) ∧
      (AllAgree (spellings U columnTypes allowedFields column direction) ↔
        RefusedColumn U allowedFields column ∨ SettledColumn U allowedFields column) := by
  have hfive : AllAgree (spellings U columnTypes allowedFields column direction) ↔
      RefusedColumn U allowedFields column ∨ SettledColumn U allowedFields column := by
    cases hname : sanitizeFieldName U column with
    | none =>
      rw [spellings_agree_of_refused hcase hspace hc direction hname]
      simp [RefusedColumn, SettledColumn, hname]
    | some name =>
      rw [spellings_agree_of_name hcase hspace hc direction hname]
      simp [RefusedColumn, SettledColumn, hname]
  refine ⟨?_, hfive⟩
  obtain ⟨e, he⟩ := @asksElement_suffix U allowedFields column hc hspace direction
  constructor
  · rintro (hrefused | ⟨sort, hsort⟩)
    · have hall : AllAgree (spellings U columnTypes allowedFields column direction) :=
        .inl fun o ho => hrefused o (List.mem_cons_of_mem _ ho)
      refine (hfive.mp hall).resolve_right ?_
      rintro ⟨name, hname, -⟩
      -- The plain spelling of a field is not refused.
      obtain ⟨e', he'⟩ := hrefused (plainSort U allowedFields column direction) (by
        rw [allSpellings, spellings_eq hspace hc]
        simp)
      rw [plainSort, fieldOf, hname] at he'
      cases he'
    · have hfirst := hsort _ List.mem_cons_self
      rw [he] at hfirst
      cases hfirst
  · intro hrefused
    have hall := hfive.mpr (.inl hrefused)
    rcases hall with hall | ⟨sort, hsort⟩
    · exact .inl (List.forall_mem_cons.mpr ⟨⟨e, he⟩, hall⟩)
    · have hplain := hsort (plainSort U allowedFields column direction) (by
        rw [spellings_eq hspace hc]
        simp)
      rw [plainSort, fieldOf, hrefused.1] at hplain
      cases hplain

/-- A descending sort on a name. -/
theorem sort_spellings_iff_name :
    (AllAgree (allSpellings asciiTables [] none "name" .desc) ↔
        RefusedColumn asciiTables none "name") ∧
      (AllAgree (spellings asciiTables [] none "name" .desc) ↔
        RefusedColumn asciiTables none "name" ∨ SettledColumn asciiTables none "name") :=
  sort_spellings_iff asciiCase_asciiTables whitespaceApart_asciiTables
    (columnName_of_all (by decide) (by decide)) .desc

/-- `orderby=age:desc,id` is refused where `orderby=age:desc` sorts, `orderby[created_at]=desc` sorts
on another column than `orderby=-created_at`, and with an allow-list of `age` alone `orderby[age]` is
left out. -/
theorem not_sort_spellings :
    ¬ AllAgree (allSpellings asciiTables [] none "age" .desc) ∧
      ¬ AllAgree (spellings asciiTables [] none "created_at" .desc) ∧
      ¬ AllAgree (spellings asciiTables [] (some ["age"]) "age" .desc) := by
  refine ⟨?_, ?_, ?_⟩
  · have hrefused : ∃ e, asksElement asciiTables none "age:desc" = .error e := ⟨_, rfl⟩
    have hsorted : asks asciiTables [] none ("orderby", "age:desc") =
        .ok { filter := { sorts := [⟨"age", .desc⟩] } } := by decide
    rintro (hall | ⟨sort, hall⟩)
    · obtain ⟨e, he⟩ := hall (asks asciiTables [] none ("orderby", "age:desc"))
        (by simp [allSpellings, spellings, SortDirection.text])
      rw [hsorted] at he
      cases he
    · obtain ⟨e, he⟩ := hrefused
      have hfirst := hall (asksElement asciiTables none "age:desc") List.mem_cons_self
      rw [he] at hfirst
      cases hfirst
  · rw [spellings_agree_of_name asciiCase_asciiTables whitespaceApart_asciiTables
      (columnName_of_all (by decide) (by decide)) .desc
      (show sanitizeFieldName asciiTables "created_at" = some "created_at" by decide)]
    decide
  · rw [spellings_agree_of_name asciiCase_asciiTables whitespaceApart_asciiTables
      (columnName_of_all (by decide) (by decide)) .desc
      (show sanitizeFieldName asciiTables "age" = some "age" by decide)]
    decide

end Spellings

end Backbone.Orm
