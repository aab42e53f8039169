import Backbone.Orm.NamedColumns

/-!
# What one parameter asks for

The parser walks the parameters of a request in whatever order the hash map yields them. What one of
them asks for (`asks`) does not depend on what was gathered before it: conditions and sorts go behind
those gathered so far, and at most one field of the filter is set anew (`slotOf`). `parseParam_eq` says
that of the loop's body, `parseFilters_gathered` of the whole loop.

Reference: `backbone-orm/src/filter/parser.rs`.
-/

namespace Backbone.Orm

open Text

/-! ## Effects -/

/-- The fields of a filter that a parameter sets, whatever they were before. -/
inductive Slot where
  | search
  | searchFields
  | limit
  | offset
  | page
  | cursorAfter
  | cursorBefore
  | estimateTotal
deriving DecidableEq, Repr

/-- The second filter with the field of the first. -/
def Slot.copy (slot : Slot) (e q : QueryFilter) : QueryFilter :=
  match slot with
  | .search => { q with search := e.search }
  | .searchFields => { q with searchFields := e.searchFields }
  | .limit => { q with limit := e.limit }
  | .offset => { q with offset := e.offset }
  | .page => { q with page := e.page }
  | .cursorAfter => { q with cursorAfter := e.cursorAfter }
  | .cursorBefore => { q with cursorBefore := e.cursorBefore }
  | .estimateTotal => { q with estimateTotal := e.estimateTotal }

/-- The field of a filter, with nothing else in it. -/
def Slot.value (slot : Slot) (q : QueryFilter) : QueryFilter := slot.copy q {}

/-- The field a key without a bracket sets, by the key in lower case. An empty paging value sets
none. -/
def plainSlot (key value : String) : Option Slot :=
  match key with
  | "search" => some .search
  | "searchfields" => some .searchFields
  | "limit" | "pagesize" | "perpage" | "per_page" => if trim value = "" then none else some .limit
  | "offset" => if trim value = "" then none else some .offset
  | "page" => if trim value = "" then none else some .page
  | "after" => some .cursorAfter
  | "before" => some .cursorBefore
  | "estimate" | "estimate_total" => some .estimateTotal
  | _ => none

/-- The field a parameter sets. -/
def slotOf (param : String × String) : Option Slot :=
  if isInternalKey param.1 || (bracketOf param.1).isSome then none
  else plainSlot (toAsciiLowercase param.1) param.2

/-- What one parameter asks for: what the loop's body makes of it on its own. -/
def asks (U : CharTables) (columnTypes : ColumnTypes) (allowedFields : Option (List String))
    (param : String × String) : Except QueryParamError Parsed :=
  parseParam U columnTypes allowedFields {} param

/-- What was gathered, and behind it what a parameter asks for. -/
def Parsed.add (p : Parsed) (slot : Option Slot) (e : Parsed) : Parsed where
  filter :=
    let q := { p.filter with
      conditions := p.filter.conditions ++ e.filter.conditions
      sorts := p.filter.sorts ++ e.filter.sorts }
    match slot with
    | some slot => slot.copy e.filter q
    | none => q
  orConditions := p.orConditions ++ e.orConditions

/-! ## The condition a parameter asks for -/

/-- A key without a bracket that filters on nothing, whatever its value. -/
def isKeyword (key : String) : Bool :=
  toAsciiLowercase key ∈ ["orderby", "sort"] || toAsciiLowercase key ∈ consumedKeys ||
    key ∈ ["fields", "include", "with"]

/-- The name a key filters on, with its operator; plain equality has none. -/
def filterOf (key : String) : Option (String × Option String) :=
  if isInternalKey key then none
  else
    match bracketOf key with
    | some (field, rest) =>
      let operatorStr := String.ofList rest.toList.dropLast
      if isSortKey field || toAsciiLowercase operatorStr == "orderby" then none
      else some (field, some operatorStr)
    | none => if isKeyword key then none else some (key, none)

/-- The condition of a filter on a sanitized field, unless the operator is unknown. -/
def operatorCondition (U : CharTables) (columnTypes : ColumnTypes) (field value : String)
    (operatorStr : Option String) : Option FilterCondition :=
  match operatorStr with
  | none => some (filterCondition U columnTypes field value .equal (contains value ','))
  | some operatorStr =>
    if toAsciiLowercase operatorStr = "or" ∨ toAsciiLowercase operatorStr = "orwhere" then
      some (orCondition U columnTypes field value)
    else
      (FilterOperator.fromStr operatorStr).map fun op =>
        filterCondition U columnTypes field value op (decide (op ∈ listOperators))

/-- The condition an accepted parameter asks for. -/
def conditionOf (U : CharTables) (columnTypes : ColumnTypes) (allowedFields : Option (List String))
    (param : String × String) : Option FilterCondition :=
  (filterOf param.1).bind fun f => (sanitizeFieldName U f.1).bind fun field =>
    if allows allowedFields field then operatorCondition U columnTypes field param.2 f.2 else none

/-- The conditions of a step are those of `c`: an OR condition is held back for the end. -/
def Parsed.Holds (e : Parsed) (c : Option FilterCondition) : Prop :=
  e.filter.conditions = (c.filter (·.logical = .and)).toList ∧
    e.orConditions = (c.filter (·.logical = .or)).toList

/-- `field[operator]`. -/
def bracketKey (field operatorStr : String) : String := field ++ "[" ++ operatorStr ++ "]"

section Loop

variable {U : CharTables} {columnTypes : ColumnTypes} {allowedFields : Option (List String)}
  {param x : String × String} {e : Parsed} {field : String} {params : List (String × String)}
  {key value : String} {operatorStr : Option String} (p : Parsed) (slot : Slot) {name : String}
  {c : FilterCondition} {field : String}

/-! ## One parameter -/

/-- A step that adds the same to whatever was gathered before. -/
def AddsAlone (slot : Option Slot) (step : Parsed → Except QueryParamError Parsed) : Prop :=
  ∀ p, step p = (step {}).map (p.add slot)

theorem Parsed.add_empty : p.add none {} = p := by
  simp [Parsed.add]

theorem AddsAlone.ok_self : AddsAlone none (fun p => .ok p) := fun p => by
  rw [Except.map, p.add_empty]

/-- A step that reads something first, and may be refused there. -/
theorem AddsAlone.bind {slot : Option Slot} {α : Type} {x : Except QueryParamError α}
    {step : α → Parsed → Except QueryParamError Parsed} (h : ∀ a, AddsAlone slot (step a)) :
    AddsAlone slot (fun p => x >>= fun a => step a p) := fun p => by
  cases x with
  | error e => rfl
  | ok a => exact h a p

theorem addsAlone_sort (sort : SortSpec) :
    AddsAlone none (fun p => .ok { p with filter := p.filter.addSort sort }) := fun p => by
  simp [Except.map, Parsed.add, QueryFilter.addSort]

theorem addsAlone_sortBy (field sql : String) (direction : SortDirection) :
    AddsAlone none (fun p => .ok (p.sortBy allowedFields field sql direction)) := by
  unfold Parsed.sortBy
  by_cases hallow : allows allowedFields field = true
  · simp only [hallow, if_true]
    exact addsAlone_sort _
  · simp only [hallow, if_false, Bool.false_eq_true]
    exact .ok_self

theorem addsAlone_condition (c : FilterCondition) :
    AddsAlone none (fun p => .ok { p with filter := p.filter.addCondition c }) := fun p => by
  simp [Except.map, Parsed.add, QueryFilter.addCondition]

theorem addsAlone_orCondition (c : FilterCondition) :
    AddsAlone none (fun p => .ok { p with orConditions := p.orConditions ++ [c] }) := fun p => by
  simp [Except.map, Parsed.add]

/-- Two additions in a row are one. -/
theorem Parsed.add_add (e f : Parsed) : (p.add none e).add none f = p.add none (e.add none f) := by
  simp [Parsed.add]

theorem addsAlone_sortPart (key part : String) :
    AddsAlone none (fun p => sortPart U key allowedFields p part) := by
  unfold sortPart
  by_cases hempty : trim part = ""
  · simp only [hempty, if_true]
    exact .ok_self
  · simp only [hempty, if_false]
    exact .bind fun field => addsAlone_sortBy _ _ _

theorem addsAlone_sortParts (key : String) (parts : List String) :
    AddsAlone none (fun p => parts.foldlM (sortPart U key allowedFields) p) := by
  induction parts with
  | nil => exact .ok_self
  | cons part parts ih =>
    intro p
    have hpart := @addsAlone_sortPart U allowedFields key part p
    simp only [List.foldlM_cons] at hpart ⊢
    rw [hpart]
    cases hone : sortPart U key allowedFields {} part with
    | error e => rfl
    | ok e =>
      have hrest := ih (p.add none e)
      have hrest' := ih e
      simp only [] at hrest hrest'
      simp only [Except.map, bind, Except.bind]
      rw [hrest, hrest']
      cases parts.foldlM (sortPart U key allowedFields) {} with
      | error _ => rfl
      | ok f => exact congrArg Except.ok (p.add_add e f)

theorem addsAlone_sortSingle (key value : String) :
    AddsAlone none (fun p => sortSingle U key value allowedFields p) := by
  unfold sortSingle
  by_cases hempty : trim (trimStartMatches (sortSuffix value).1 '-') = ""
  · simp only [hempty, if_true]
    exact .ok_self
  · simp only [hempty, if_false]
    exact .bind fun field => addsAlone_sortBy _ _ _

theorem addsAlone_parseOperator (key value field operatorStr : String) :
    AddsAlone none (fun p => parseOperator U columnTypes key value field operatorStr p) := by
  intro p
  simp only [parseOperator]
  split
  · exact addsAlone_sort _ p
  · exact addsAlone_orCondition _ p
  · exact addsAlone_orCondition _ p
  · split
    · exact addsAlone_condition _ p
    · rfl

theorem addsAlone_parseBracket (key value field operatorStr : String) :
    AddsAlone none
      (fun p => parseBracket U columnTypes allowedFields key value field operatorStr p) := by
  refine .bind fun name => ?_
  intro p
  simp only []
  split
  · exact AddsAlone.ok_self p
  · split
    · exact AddsAlone.bind (fun sortField => addsAlone_sortBy _ _ _) p
    · exact addsAlone_parseOperator key value name operatorStr p

theorem addsAlone_parseEquality (key value : String) :
    AddsAlone none (fun p => parseEquality U columnTypes allowedFields key value p) := by
  refine .bind fun name => ?_
  intro p
  simp only []
  split
  · exact AddsAlone.ok_self p
  · exact addsAlone_condition _ p

theorem addsAlone_set (e : QueryFilter) :
    AddsAlone (some slot) (fun p => .ok { p with filter := slot.copy e p.filter }) := fun p => by
  cases slot <;> simp [Except.map, Parsed.add, Slot.copy]

theorem addsAlone_parsePlain (hkey : isInternalKey param.1 = false) (hb : bracketOf param.1 = none) :
    AddsAlone (slotOf param)
      (fun p => parsePlain U columnTypes allowedFields param.1 param.2 p) := by
  intro p
  have hslot : slotOf param = plainSlot (toAsciiLowercase param.1) param.2 := by
    simp [slotOf, hkey, hb]
  rw [hslot]
  simp only [parsePlain]
  split
  case h_1 _ heq | h_2 _ heq =>
    rw [heq]
    split
    · exact addsAlone_sortParts _ _ p
    · exact addsAlone_sortSingle _ _ p
  case h_3 _ heq =>
    rw [heq]
    exact addsAlone_set .search { search := some param.2 } p
  case h_4 _ heq =>
    rw [heq]
    exact AddsAlone.bind (fun columns => addsAlone_set .searchFields { searchFields := columns }) p
  case h_11 _ heq =>
    rw [heq]
    exact addsAlone_set .cursorAfter { cursorAfter := some param.2 } p
  case h_12 _ heq =>
    rw [heq]
    exact addsAlone_set .cursorBefore { cursorBefore := some param.2 } p
  case h_13 _ heq | h_14 _ heq =>
    rw [heq]
    exact addsAlone_set .estimateTotal { estimateTotal := param.2 ∈ ["1", "true", "yes"] } p
  case h_15 =>
    have hnone : plainSlot (toAsciiLowercase param.1) param.2 = none := by simp_all [plainSlot]
    rw [hnone]
    split
    · exact AddsAlone.ok_self p
    · exact addsAlone_parseEquality _ _ p
  case h_9 _ heq =>
    rw [heq, plainSlot]
    split
    · exact AddsAlone.ok_self p
    · exact AddsAlone.bind (fun n => addsAlone_set .offset { offset := some n }) p
  case h_10 _ heq =>
    rw [heq, plainSlot]
    split
    · exact AddsAlone.ok_self p
    · exact AddsAlone.bind (fun n => addsAlone_set .page { page := some n }) p
  all_goals
    rename_i heq
    rw [heq, plainSlot]
    split
    · exact AddsAlone.ok_self p
    · exact AddsAlone.bind (fun n => addsAlone_set .limit { limit := some n }) p

/-- The loop's body adds what its parameter asks for. -/
theorem parseParam_eq (param : String × String) :
    parseParam U columnTypes allowedFields p param =
      (asks U columnTypes allowedFields param).map (p.add (slotOf param)) := by
  unfold asks
  by_cases hkey : isInternalKey param.1 = true
  · simp [parseParam, hkey, slotOf, Except.map, Parsed.add]
  · rw [Bool.not_eq_true] at hkey
    cases hb : bracketOf param.1 with
    | none =>
      have hplain := @addsAlone_parsePlain U columnTypes allowedFields param hkey hb p
      simpa [parseParam, hkey, hb] using hplain
    | some b =>
      obtain ⟨field, rest⟩ := b
      have hslot : slotOf param = none := by simp [slotOf, hb]
      simp only [parseParam, hkey, hb, hslot, Bool.false_eq_true, if_false]
      split
      · exact addsAlone_parseBracket _ _ _ _ p
      · rfl

/-- A step that gathers no condition. -/
theorem Parsed.holds_of_adds (h : Adds false none {} e) : e.Holds none := by
  have hnil : e.conditions = [] := List.eq_nil_iff_forall_not_mem.mpr fun c hc => by
    simpa [Parsed.conditions] using (h.mem c).mp hc
  exact List.append_eq_nil_iff.mp hnil

theorem parseOperator_holds {operatorStr : String}
    (horder : toAsciiLowercase operatorStr ≠ "orderby")
    (h : parseOperator U columnTypes key value field operatorStr {} = .ok e) :
    e.Holds (operatorCondition U columnTypes field value (some operatorStr)) := by
  unfold parseOperator at h
  split at h
  · rename_i hs
    exact absurd hs horder
  · rename_i hs
    cases h
    rw [operatorCondition, if_pos (.inl hs)]
    exact ⟨rfl, rfl⟩
  · rename_i hs
    cases h
    rw [operatorCondition, if_pos (.inr hs)]
    exact ⟨rfl, rfl⟩
  · rename_i _ hor horwhere
    split at h
    · rename_i op hop
      cases h
      rw [operatorCondition, if_neg (fun h => h.elim hor horwhere), hop]
      exact ⟨rfl, rfl⟩
    · cases h

theorem conditionOf_of_filterOf
    (hf : filterOf param.1 = some (name, operatorStr)) (hs : sanitizeFieldName U name = some field) :
    conditionOf U columnTypes allowedFields param =
      if allows allowedFields field then operatorCondition U columnTypes field param.2 operatorStr
      else none := by
  simp [conditionOf, hf, hs]

theorem conditionOf_eq_none (hf : filterOf param.1 = none) :
    conditionOf U columnTypes allowedFields param = none := by
  simp [conditionOf, hf]

/-- A parameter with a condition filters on a field. -/
theorem conditionOf_eq_some :
    conditionOf U columnTypes allowedFields param = some c ↔
      ∃ name operatorStr field, filterOf param.1 = some (name, operatorStr) ∧
        sanitizeFieldName U name = some field ∧ allows allowedFields field = true ∧
        operatorCondition U columnTypes field param.2 operatorStr = some c := by
  constructor
  · intro h
    obtain ⟨⟨name, operatorStr⟩, hf, hrest⟩ := Option.bind_eq_some_iff.mp h
    obtain ⟨field, hs, hrest⟩ := Option.bind_eq_some_iff.mp hrest
    split at hrest
    · rename_i hallow
      exact ⟨name, operatorStr, field, hf, hs, hallow, hrest⟩
    · cases hrest
  · rintro ⟨name, operatorStr, field, hf, hs, hallow, hc⟩
    rw [conditionOf_of_filterOf hf hs, if_pos hallow, hc]

/-- Every operator but OR makes its condition the same way. -/
theorem operatorCondition_eq_some
    (h : operatorCondition U columnTypes field value operatorStr = some c) :
    c = orCondition U columnTypes field value ∨
      ∃ op isArray, c = filterCondition U columnTypes field value op isArray := by
  unfold operatorCondition at h
  split at h
  · cases h
    exact .inr ⟨_, _, rfl⟩
  · split at h
    · cases h
      exact .inl rfl
    · obtain ⟨op, -, rfl⟩ := Option.map_eq_some_iff.mp h
      exact .inr ⟨_, _, rfl⟩

/-- A key with an operator filters on the name before the bracket. -/
theorem filterOf_eq_bracket {operatorStr : String}
    (h : filterOf key = some (name, some operatorStr)) :
    isInternalKey key = false ∧ ∃ rest, bracketOf key = some (name, rest) ∧
      operatorStr = String.ofList rest.toList.dropLast ∧ isSortKey name = false ∧
        toAsciiLowercase operatorStr ≠ "orderby" := by
  unfold filterOf at h
  split at h
  · cases h
  · rename_i hkey
    split at h
    · rename_i field rest hb
      dsimp only at h
      split at h
      · cases h
      · rename_i hsort
        cases h
        rw [Bool.or_eq_true, not_or, Bool.not_eq_true, beq_iff_eq] at hsort
        exact ⟨by simpa using hkey, rest, hb, rfl, hsort⟩
    · split at h <;> cases h

theorem filterOf_eq_none_of_keyword (hb : bracketOf key = none) (hg : isKeyword key = true) :
    filterOf key = none := by
  simp [filterOf, hb, hg]

theorem parsePlain_holds (hkey : isInternalKey param.1 = false) (hb : bracketOf param.1 = none)
    (h : parsePlain U columnTypes allowedFields param.1 param.2 {} = .ok e) :
    e.Holds (conditionOf U columnTypes allowedFields param) := by
  have hkeyword (hg : isKeyword param.1 = true) (ha : Adds false none {} e) :
      e.Holds (conditionOf U columnTypes allowedFields param) := by
    rw [conditionOf_eq_none (filterOf_eq_none_of_keyword hb hg)]
    exact Parsed.holds_of_adds ha
  have hconsumed (hmem : toAsciiLowercase param.1 ∈ consumedKeys) : isKeyword param.1 = true := by
    simp [isKeyword, hmem]
  unfold parsePlain at h
  split at h
  case h_1 _ heq | h_2 _ heq =>
    refine hkeyword (by simp [isKeyword, heq]) ?_
    split at h
    · exact sortParts_adds h
    · exact sortSingle_adds h
  case h_4 _ heq =>
    obtain ⟨columns, hcolumns, hok⟩ := bind_eq_ok.mp h
    cases hok
    rw [conditionOf_eq_none (filterOf_eq_none_of_keyword hb (hconsumed (by rw [heq]; decide)))]
    exact ⟨rfl, rfl⟩
  case h_3 _ heq | h_11 _ heq | h_12 _ heq | h_13 _ heq | h_14 _ heq =>
    cases h
    exact hkeyword (hconsumed (by rw [heq]; decide)) (.nothing rfl rfl rfl rfl rfl)
  case h_15 =>
    have hplain : toAsciiLowercase param.1 ∉ ["orderby", "sort"] ∧
        toAsciiLowercase param.1 ∉ consumedKeys := by
      simp_all [consumedKeys]
    split at h
    · rename_i hreserved
      cases h
      exact hkeyword (by simp [isKeyword, hreserved]) (.nothing rfl rfl rfl rfl rfl)
    · rename_i hreserved
      have hf : filterOf param.1 = some (param.1, none) := by
        have hg : isKeyword param.1 = false := by
          simp only [isKeyword, hplain.1, hplain.2, hreserved, decide_false, Bool.or_self]
        simp [filterOf, hkey, hb, hg]
      obtain ⟨field, hfield, hok⟩ := bind_eq_ok.mp h
      rw [conditionOf_of_filterOf hf (fieldOf_ok hfield)]
      split at hok
      · rename_i hallow
        cases hok
        rw [if_neg (by simpa using hallow)]
        exact ⟨rfl, rfl⟩
      · rename_i hallow
        cases hok
        rw [if_pos (by simpa using hallow)]
        exact ⟨rfl, rfl⟩
  all_goals
    rename_i heq
    refine hkeyword (hconsumed (by rw [heq]; decide)) ?_
    split at h
    · cases h
      exact .nothing rfl rfl rfl rfl rfl
    · obtain ⟨n, -, hok⟩ := bind_eq_ok.mp h
      cases hok
      exact .nothing rfl rfl rfl rfl rfl

theorem parseBracket_holds {rest : String} (hkey : isInternalKey param.1 = false)
    (hb : bracketOf param.1 = some (field, rest))
    (h : parseBracket U columnTypes allowedFields param.1 param.2 field
      (String.ofList rest.toList.dropLast) {} = .ok e) :
    e.Holds (conditionOf U columnTypes allowedFields param) := by
  obtain ⟨name, hname, hcases⟩ := parseBracket_cases h
  have hf : filterOf param.1 = if isSortKey field ||
      toAsciiLowercase (String.ofList rest.toList.dropLast) == "orderby" then none
      else some (field, some (String.ofList rest.toList.dropLast)) := by
    simp [filterOf, hkey, hb]
  have hfiltered (hno : ¬ (isSortKey field ||
      toAsciiLowercase (String.ofList rest.toList.dropLast) == "orderby") = true) :
      conditionOf U columnTypes allowedFields param =
        if allows allowedFields name then operatorCondition U columnTypes name param.2
          (some (String.ofList rest.toList.dropLast)) else none :=
    conditionOf_of_filterOf (hf.trans (if_neg hno)) (fieldOf_ok hname)
  rcases hcases with ⟨hallow, rfl⟩ | ⟨-, hsort, sortField, hsf, rfl⟩ | ⟨hallow, hsort, hok⟩
  · have hnone : conditionOf U columnTypes allowedFields param = none := by
      by_cases hno : (isSortKey field ||
          toAsciiLowercase (String.ofList rest.toList.dropLast) == "orderby") = true
      · exact conditionOf_eq_none (hf.trans (if_pos hno))
      · rw [hfiltered hno, if_neg (Bool.not_eq_true _ ▸ hallow)]
    rw [hnone]
    exact ⟨rfl, rfl⟩
  · rw [conditionOf_eq_none (hf.trans (if_pos (by simp [hsort])))]
    exact Parsed.holds_of_adds (.sortBy _ (columnText_of_sanitize (fieldOf_ok hsf)) _)
  · by_cases horder : toAsciiLowercase (String.ofList rest.toList.dropLast) = "orderby"
    · rw [conditionOf_eq_none (hf.trans (if_pos (by simp [horder])))]
      simp only [parseOperator, horder] at hok
      cases hok
      exact ⟨rfl, rfl⟩
    · rw [hfiltered (by simp [hsort, horder]), if_pos hallow]
      exact parseOperator_holds horder hok

/-- An accepted parameter asks for its condition and no other. -/
theorem asks_holds (h : asks U columnTypes allowedFields param = .ok e) :
    e.Holds (conditionOf U columnTypes allowedFields param) := by
  simp only [asks, parseParam] at h
  split at h
  · rename_i hkey
    cases h
    rw [conditionOf_eq_none (by simp [filterOf, hkey])]
    exact ⟨rfl, rfl⟩
  · rename_i hkey
    rw [Bool.not_eq_true] at hkey
    cases hb : bracketOf param.1 with
    | some b =>
      obtain ⟨field, rest⟩ := b
      simp only [hb] at h
      split at h
      · exact parseBracket_holds hkey hb h
      · cases h
    | none =>
      simp only [hb] at h
      exact parsePlain_holds hkey hb h

/-! ## Keys -/

theorem toList_bracketKey (field operatorStr : String) :
    (bracketKey field operatorStr).toList =
      field.toList ++ '[' :: (operatorStr.toList ++ [']']) := by
  simp [bracketKey]

/-- A bracket behind a key does not move it into the internal namespace. -/
theorem isInternalKey_bracketKey (field operatorStr : String) :
    isInternalKey (bracketKey field operatorStr) = isInternalKey field := by
  have hopen : isWhitespace '[' = false := by decide
  have key (l rest : List Char) : ['_', '_'].isPrefixOf (l ++ '[' :: rest) =
      ['_', '_'].isPrefixOf l := by
    rcases l with _ | ⟨a, _ | ⟨b, l⟩⟩ <;> simp [List.isPrefixOf]
  have htext : "__".toList = ['_', '_'] := rfl
  unfold isInternalKey startsWith trimStart
  rw [htext]
  simp only [String.toList_ofList, toList_bracketKey, List.dropWhile_append]
  split
  · rename_i hempty
    rw [List.isEmpty_iff.mp hempty, List.dropWhile_cons, if_neg (by simp [hopen])]
    exact key [] _
  · exact key _ _

theorem bracketOf_bracketKey (h : '[' ∉ field.toList) (operatorStr : String) :
    bracketOf (bracketKey field operatorStr) = some (field, operatorStr ++ "]") := by
  have hkey : bracketKey field operatorStr =
      field ++ String.singleton '[' ++ (operatorStr ++ "]") :=
    @String.append_assoc (field ++ "[") operatorStr "]"
  rw [bracketOf, hkey, splitOnce_append h]

theorem bracketOf_eq_none {key : String} (h : '[' ∉ key.toList) : bracketOf key = none :=
  splitOnce_eq_none (by simpa [contains] using h)

theorem asks_internal (h : isInternalKey x.1 = true) :
    asks U columnTypes allowedFields x = .ok {} := by
  simp [asks, parseParam, h]

/-- What `field[operator]` asks for. -/
theorem asks_bracketKey (hb : '[' ∉ field.toList)
    (hkey : isInternalKey field = false) (operatorStr value : String) :
    asks U columnTypes allowedFields (bracketKey field operatorStr, value) =
      parseBracket U columnTypes allowedFields (bracketKey field operatorStr) value field operatorStr
        {} := by
  have hends : endsWith (bracketKey field operatorStr) ']' = true := by
    rw [endsWith, toList_bracketKey, List.getLast?_append]
    simp [List.getLast?_cons]
  have hop : String.ofList (operatorStr ++ "]").toList.dropLast = operatorStr := by simp
  simp only [asks, parseParam, isInternalKey_bracketKey, hkey, bracketOf_bracketKey hb, hends, hop,
    Bool.false_eq_true, if_false, if_true]

/-- What `field=value` asks for, when the field is not a keyword. -/
theorem asks_equality (hb : '[' ∉ field.toList)
    (hkey : isInternalKey field = false) (hword : isKeyword field = false) (value : String) :
    asks U columnTypes allowedFields (field, value) =
      parseEquality U columnTypes allowedFields field value {} := by
  simp only [isKeyword, consumedKeys, Bool.or_eq_false_iff, decide_eq_false_iff_not, List.mem_cons,
    List.not_mem_nil, or_false, not_or] at hword
  simp only [asks, parseParam, hkey, bracketOf_eq_none hb, Bool.false_eq_true, if_false]
  unfold parsePlain
  split
  case h_15 => simp [hword.2]
  all_goals simp_all

/-! ## All of them -/

/-- What a parameter asks for, with the field it sets. -/
abbrev Part := Option Slot × Parsed

variable (U columnTypes allowedFields) in
/-- What a parameter asks for, or its refusal. -/
def partOf (param : String × String) : Except QueryParamError Part :=
  (asks U columnTypes allowedFields param).map fun e => (slotOf param, e)

/-- What parameters ask for, one behind the other. -/
def gather (p : Parsed) (parts : List Part) : Parsed :=
  parts.foldl (fun p part => p.add part.1 part.2) p

/-- The last of the parameters that sets a field. -/
def lastSet (slot : Slot) (parts : List Part) : Option Parsed :=
  ((parts.filter (·.1 = some slot)).getLast?).map Prod.snd

theorem foldlM_eq_gather (params : List (String × String)) :
    params.foldlM (parseParam U columnTypes allowedFields) p =
      (params.mapM (partOf U columnTypes allowedFields)).map (gather p) := by
  induction params generalizing p with
  | nil => rfl
  | cons x params ih =>
    rw [List.foldlM_cons, List.mapM_cons, parseParam_eq, partOf]
    cases asks U columnTypes allowedFields x with
    | error e => rfl
    | ok e =>
      simp only [Except.map, bind, Except.bind, ih]
      cases params.mapM (partOf U columnTypes allowedFields) <;> rfl

@[simp] theorem Slot.copy_conditions (e q : QueryFilter) :
    (slot.copy e q).conditions = q.conditions ∧ (slot.copy e q).sorts = q.sorts ∧
      (slot.copy e q).baseConditions = q.baseConditions := by
  cases slot <;> exact ⟨rfl, rfl, rfl⟩

theorem Slot.value_copy (other : Slot) (e q : QueryFilter) :
    other.value (slot.copy e q) = if slot = other then other.value e else other.value q := by
  cases slot <;> cases other <;> rfl

theorem Parsed.add_lists (slot : Option Slot) (e : Parsed) :
    (p.add slot e).filter.conditions = p.filter.conditions ++ e.filter.conditions ∧
      (p.add slot e).orConditions = p.orConditions ++ e.orConditions ∧
      (p.add slot e).filter.sorts = p.filter.sorts ++ e.filter.sorts ∧
      (p.add slot e).filter.baseConditions = p.filter.baseConditions := by
  cases slot <;> simp [Parsed.add]

theorem Parsed.value_add (slot : Option Slot) (e : Parsed) (other : Slot) :
    other.value (p.add slot e).filter =
      if slot = some other then other.value e.filter else other.value p.filter := by
  cases slot with
  | none => cases other <;> rfl
  | some slot =>
    simp only [Parsed.add, Slot.value_copy, Option.some.injEq]
    congr 1

/-- What a filter holds of the parameters it was gathered from. -/
structure QueryFilter.GatheredFrom (q : QueryFilter) (parts : List Part) : Prop where
  conditions : q.conditions =
    parts.flatMap (·.2.filter.conditions) ++ parts.flatMap (·.2.orConditions)
  sorts : q.sorts = parts.flatMap (·.2.filter.sorts)
  slots : ∀ slot : Slot, slot.value q = slot.value ((lastSet slot parts).getD {}).filter
  base : q.baseConditions = []

theorem gather_lists (parts : List Part) :
    (gather p parts).filter.conditions =
        p.filter.conditions ++ parts.flatMap (·.2.filter.conditions) ∧
      (gather p parts).orConditions = p.orConditions ++ parts.flatMap (·.2.orConditions) ∧
      (gather p parts).filter.sorts = p.filter.sorts ++ parts.flatMap (·.2.filter.sorts) ∧
      (gather p parts).filter.baseConditions = p.filter.baseConditions := by
  induction parts generalizing p with
  | nil => simp [gather]
  | cons part parts ih =>
    obtain ⟨hc, ho, hs, hb⟩ := ih (p.add part.1 part.2)
    obtain ⟨hc', ho', hs', hb'⟩ := p.add_lists part.1 part.2
    rw [gather, List.foldl_cons, ← gather]
    rw [hc, ho, hs, hb, hc', ho', hs', hb']
    simp

theorem value_gather (parts : List Part) (slot : Slot) :
    slot.value (gather p parts).filter = slot.value ((lastSet slot parts).getD p).filter := by
  induction parts generalizing p with
  | nil => rfl
  | cons part parts ih =>
    rw [gather, List.foldl_cons, ← gather, ih, lastSet, lastSet, List.filter_cons]
    cases hlast : (parts.filter (·.1 = some slot)).getLast? with
    | none =>
      have hempty := List.getLast?_eq_none_iff.mp hlast
      rw [hempty, Option.map_none, Option.getD_none, Parsed.value_add]
      by_cases hslot : part.1 = some slot
      · simp [hslot]
      · simp [hslot]
    | some last =>
      by_cases hslot : part.1 = some slot
      · simp [hslot, List.getLast?_cons, hlast]
      · simp [hslot, hlast]

/-- The filter of a request is gathered from what its parameters ask for. -/
theorem parseFilters_gathered {q : QueryFilter}
    (h : parseFilters U params columnTypes allowedFields = .ok q) :
    ∃ parts, params.mapM (partOf U columnTypes allowedFields) = .ok parts ∧
      q.GatheredFrom parts := by
  obtain ⟨p, hp, hok⟩ := bind_eq_ok.mp h
  rw [foldlM_eq_gather] at hp
  cases hparts : params.mapM (partOf U columnTypes allowedFields) with
  | error e =>
    rw [hparts] at hp
    cases hp
  | ok parts =>
    rw [hparts] at hp
    cases hp
    rw [foldl_addCondition] at hok
    cases hok
    obtain ⟨hc, ho, hs, hb⟩ := gather_lists {} parts
    refine ⟨parts, rfl, ⟨?_, ?_, fun slot => ?_, hb⟩⟩
    · rw [hc, ho]
      rfl
    · rw [hs]
      rfl
    · refine Eq.trans ?_ (value_gather {} parts slot)
      cases slot <;> rfl

/-- A request is refused exactly when one of its parameters is. -/
theorem exists_parseFilters_iff :
    (∃ q, parseFilters U params columnTypes allowedFields = .ok q) ↔
      ∀ x ∈ params, ∃ e, asks U columnTypes allowedFields x = .ok e := by
  have hpart (x : String × String) : (∃ part, partOf U columnTypes allowedFields x = .ok part) ↔
      ∃ e, asks U columnTypes allowedFields x = .ok e := by
    rw [partOf]
    cases asks U columnTypes allowedFields x <;> simp [Except.map]
  simp only [← hpart, ← exists_mapM_eq_ok]
  unfold parseFilters
  rw [foldlM_eq_gather]
  cases params.mapM (partOf U columnTypes allowedFields) with
  | error e => simp [Except.map, bind, Except.bind]
  | ok parts => simp [Except.map, bind, Except.bind]

theorem partOf_eq_ok {part : Part} :
    partOf U columnTypes allowedFields x = .ok part ↔
      part.1 = slotOf x ∧ asks U columnTypes allowedFields x = .ok part.2 := by
  obtain ⟨slot, e⟩ := part
  rw [partOf]
  cases asks U columnTypes allowedFields x with
  | error e => simp [Except.map]
  | ok f => simp [Except.map, eq_comm]

/-- The last parameter of a request that sets a field. -/
def lastParam (slot : Slot) (params : List (String × String)) : Option (String × String) :=
  (params.filter (slotOf · = some slot)).getLast?

variable {slot : Slot}

theorem slotOf_eq_some (h : slotOf param = some slot) :
    isInternalKey param.1 = false ∧ bracketOf param.1 = none ∧
      plainSlot (toAsciiLowercase param.1) param.2 = some slot := by
  unfold slotOf at h
  split_ifs at h with hkey
  rw [Bool.or_eq_true, not_or, Bool.not_eq_true, Bool.not_eq_true, Option.isSome_eq_false_iff,
    Option.isNone_iff_eq_none] at hkey
  exact ⟨hkey.1, hkey.2, h⟩

theorem plainSlot_eq_search : plainSlot key value = some .search ↔ key = "search" := by
  refine ⟨fun h => ?_, fun h => h ▸ rfl⟩
  unfold plainSlot at h
  split at h <;> (try split at h) <;> first | rfl | cases h

theorem plainSlot_eq_searchFields :
    plainSlot key value = some .searchFields ↔ key = "searchfields" := by
  refine ⟨fun h => ?_, fun h => h ▸ rfl⟩
  unfold plainSlot at h
  split at h <;> (try split at h) <;> first | rfl | cases h

/-- The last parameter that sets a field, with what it asks for. -/
theorem lastSet_eq {parts : List Part}
    (h : List.Forall₂ (fun x part => partOf U columnTypes allowedFields x = .ok part) params parts)
    (slot : Slot) :
    Option.Rel (fun x e => asks U columnTypes allowedFields x = .ok e) (lastParam slot params)
      (lastSet slot parts) := by
  have hset : List.Forall₂ (fun x part => partOf U columnTypes allowedFields x = .ok part)
      (params.filter (slotOf · = some slot)) (parts.filter (·.1 = some slot)) := by
    refine List.rel_filter (fun x part hx => ?_) h
    simp [(partOf_eq_ok.mp hx).1]
  have hlast := Table.rel_getLast? hset
  unfold lastParam lastSet
  generalize (params.filter (slotOf · = some slot)).getLast? = x,
    (parts.filter (·.1 = some slot)).getLast? = part at hlast
  cases hlast with
  | none => exact .none
  | some hx => exact .some (partOf_eq_ok.mp hx).2

theorem mem_of_lastParam (h : lastParam slot params = some x) :
    x ∈ params ∧ slotOf x = some slot := by
  have hmem := List.mem_filter.mp (List.mem_of_getLast? h)
  exact ⟨hmem.1, of_decide_eq_true hmem.2⟩

/-- A search asks for its term. -/
theorem asks_search (hx : slotOf x = some .search) (h : asks U columnTypes allowedFields x = .ok e) :
    e.filter.search = some x.2 := by
  obtain ⟨hkey, hb, hplain⟩ := slotOf_eq_some hx
  simp only [asks, parseParam, hkey, hb, Bool.false_eq_true, if_false, parsePlain,
    plainSlot_eq_search.mp hplain] at h
  cases h
  rfl

/-- The search fields a parameter asks for. -/
theorem asks_searchFields (hx : slotOf x = some .searchFields)
    (h : asks U columnTypes allowedFields x = .ok e) :
    searchColumns U x.1 x.2 allowedFields = .ok e.filter.searchFields := by
  obtain ⟨hkey, hb, hplain⟩ := slotOf_eq_some hx
  simp only [asks, parseParam, hkey, hb, Bool.false_eq_true, if_false, parsePlain,
    plainSlot_eq_searchFields.mp hplain] at h
  obtain ⟨columns, hcolumns, hok⟩ := bind_eq_ok.mp h
  cases hok
  exact hcolumns

section Filter

variable {params : List (String × String)} {q : QueryFilter}
  (h : parseFilters U params columnTypes allowedFields = .ok q)
include h

/-- A field that no parameter sets is empty, and otherwise it is as the last of them sets it. -/
theorem value_parseFilters (slot : Slot) :
    (lastParam slot params = none ∧ slot.value q = slot.value {}) ∨
      ∃ x e, lastParam slot params = some x ∧ asks U columnTypes allowedFields x = .ok e ∧
        slot.value q = slot.value e.filter := by
  obtain ⟨parts, hparts, hq⟩ := parseFilters_gathered h
  have hlast := lastSet_eq (mapM_eq_ok.mp hparts) slot
  have hvalue := hq.slots slot
  cases hset : lastSet slot parts with
  | none =>
    rw [hset] at hlast hvalue
    cases hlast' : lastParam slot params with
    | none => exact .inl ⟨rfl, hvalue⟩
    | some x =>
      rw [hlast'] at hlast
      cases hlast
  | some e =>
    rw [hset] at hlast hvalue
    cases hlast' : lastParam slot params with
    | none =>
      rw [hlast'] at hlast
      cases hlast
    | some x =>
      rw [hlast'] at hlast
      cases hlast with
      | some hx => exact .inr ⟨x, e, rfl, hx, hvalue⟩

/-- The conditions of a filter, in the order of the parameters: the OR conditions come last. -/
theorem parseFilters_conditions :
    q.conditions =
      (params.filterMap (conditionOf U columnTypes allowedFields)).filter (·.logical = .and) ++
        (params.filterMap (conditionOf U columnTypes allowedFields)).filter (·.logical = .or) := by
  obtain ⟨parts, hparts, hq⟩ := parseFilters_gathered h
  rw [hq.conditions]
  have hall := mapM_eq_ok.mp hparts
  clear hparts hq h
  have hboth : parts.flatMap (·.2.filter.conditions) =
        (params.filterMap (conditionOf U columnTypes allowedFields)).filter (·.logical = .and) ∧
      parts.flatMap (·.2.orConditions) =
        (params.filterMap (conditionOf U columnTypes allowedFields)).filter (·.logical = .or) := by
    induction hall with
    | nil => exact ⟨rfl, rfl⟩
    | @cons x part params parts hx _ ih =>
      obtain ⟨hand, hor⟩ := asks_holds (partOf_eq_ok.mp hx).2
      rw [List.flatMap_cons, List.flatMap_cons, hand, hor, ih.1, ih.2, List.filterMap_cons]
      cases conditionOf U columnTypes allowedFields x with
      | none => exact ⟨rfl, rfl⟩
      | some c => cases hl : c.logical <;> simp [hl, Option.filter]
  rw [hboth.1, hboth.2]

/-- Each condition of the filter is one a parameter asks for. -/
theorem mem_conditions_iff {c : FilterCondition} :
    c ∈ q.conditions ↔ ∃ x ∈ params, conditionOf U columnTypes allowedFields x = some c := by
  rw [parseFilters_conditions h, List.mem_append, List.mem_filter, List.mem_filter,
    ← and_or_left, List.mem_filterMap]
  have hlogical : (decide (c.logical = .and) = true ∨ decide (c.logical = .or) = true) := by
    cases c.logical <;> simp
  rw [and_iff_left hlogical]

/-- The term of a request. -/
theorem search_eq : q.search = (lastParam .search params).map Prod.snd := by
  rcases value_parseFilters h .search with ⟨hlast, hvalue⟩ | ⟨x, e, hlast, he, hvalue⟩
  · have hterm := congrArg QueryFilter.search hvalue
    rw [hlast]
    exact hterm
  · have hterm := congrArg QueryFilter.search hvalue
    rw [hlast, Option.map_some, ← asks_search (mem_of_lastParam hlast).2 he]
    exact hterm

/-- The searched columns of a request. -/
theorem searchFields_eq :
    (lastParam .searchFields params = none ∧ q.searchFields = []) ∨
      ∃ x, lastParam .searchFields params = some x ∧
        searchColumns U x.1 x.2 allowedFields = .ok q.searchFields := by
  rcases value_parseFilters h .searchFields with ⟨hlast, hvalue⟩ | ⟨x, e, hlast, he, hvalue⟩
  · have hfields := congrArg QueryFilter.searchFields hvalue
    exact .inl ⟨hlast, hfields⟩
  · have hfields := congrArg QueryFilter.searchFields hvalue
    exact .inr ⟨x, hlast, (asks_searchFields (mem_of_lastParam hlast).2 he).trans
      (congrArg Except.ok hfields.symm)⟩

end Filter

end Loop

end Backbone.Orm
