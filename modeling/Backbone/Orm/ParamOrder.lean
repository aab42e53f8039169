import Backbone.Orm.ParamEffects
import Backbone.Orm.WhereClause

/-!
# The order of the parameters

The parameters of a request come out of a hash map, in an order nothing fixes, and the parser takes
them as they come: sorts are gathered in that order, and of several parameters that set one field the
last one stays. Conditions do not mind: a chain of ANDs with ORs behind it selects the same rows
whatever the order of each. `order_free_iff` says which requests read the same in every order.

Reference: `backbone-orm/src/filter/{parser,query}.rs`.
-/

namespace Backbone.Orm

open Sql Text

variable {slot : Slot} {l : List (String × String)} {x : Option (String × String)}

/-! ## The sorts a parameter asks for -/

section Asked

variable (U : CharTables) (allowedFields : Option (List String))

/-- The sort on a name, unless it is no field or the allow-list leaves it out. -/
def columnSort (name : String) (sql : String → String) (direction : SortDirection) :
    List SortSpec :=
  ((sanitizeFieldName U name).filter (allows allowedFields)).toList.map fun field =>
    ⟨sql field, direction⟩

/-- The sort of one element of an `orderby` list. -/
def elementSort (part : String) : List SortSpec :=
  if trim part = "" then []
  else
    columnSort U allowedFields (trimStartMatches (trim part) '-') fieldSql
      (if startsWith (trim part) "-" then .desc else .asc)

/-- The sort of an `orderby` value that is no list. -/
def singleSort (value : String) : List SortSpec :=
  let bare := (sortSuffix value).1
  if trim (trimStartMatches bare '-') = "" then []
  else
    columnSort U allowedFields (trimStartMatches bare '-') fieldSql
      (if startsWith bare "-" then .desc else (sortSuffix value).2.getD .asc)

/-- The sort of a key with a bracket. -/
def bracketSort (field operatorStr value : String) : List SortSpec :=
  if (sanitizeFieldName U field).any (allows allowedFields) then
    if isSortKey field then
      columnSort U allowedFields operatorStr id
        (if startsWith (trim value) "-" || eqIgnoreAsciiCase (trim value) "desc" then .desc
          else .asc)
    else if toAsciiLowercase operatorStr = "orderby" then
      columnSort U allowedFields field fieldSql (SortDirection.fromStr value)
    else []
  else []

/-- The sorts an accepted parameter asks for. -/
def sortsOf (param : String × String) : List SortSpec :=
  if isInternalKey param.1 then []
  else
    match bracketOf param.1 with
    | some (field, rest) =>
      bracketSort U allowedFields field (String.ofList rest.toList.dropLast) param.2
    | none =>
      if toAsciiLowercase param.1 ∈ ["orderby", "sort"] then
        if contains param.2 ',' then (split param.2 ',').flatMap (elementSort U allowedFields)
        else singleSort U allowedFields param.2
      else []

/-- The columns of an accepted `searchfields` value. -/
def searchedColumns (value : String) : List String :=
  (((split value ',').map trim |>.filter (· ≠ "")).filterMap (sanitizeFieldName U)).filter
    (allows allowedFields)

end Asked

section Asks

variable {U : CharTables} {columnTypes : ColumnTypes} {allowedFields : Option (List String)}
  {key value : String} {e : Parsed} {name field : String} {p : Parsed}

theorem sortBy_sorts (p : Parsed) (h : fieldOf U name key = .ok field)
    (sql : String → String) (direction : SortDirection) :
    (p.sortBy allowedFields field (sql field) direction).filter.sorts =
      p.filter.sorts ++ columnSort U allowedFields name sql direction := by
  unfold Parsed.sortBy columnSort
  rw [fieldOf_ok h]
  cases hallow : allows allowedFields field <;> simp [hallow, QueryFilter.addSort, Option.filter]

/-- A term with no name sorts by nothing, and another one by its column. -/
theorem sortTerm_sorts {empty : Prop} [Decidable empty] {direction : SortDirection}
    (h : (if empty then .ok p else (do
      let field ← fieldOf U name key
      .ok (p.sortBy allowedFields field (fieldSql field) direction))) = .ok e) :
    e.filter.sorts = p.filter.sorts ++
      if empty then [] else columnSort U allowedFields name fieldSql direction := by
  split at h
  · rename_i hempty
    cases h
    rw [if_pos hempty, List.append_nil]
  · rename_i hne
    obtain ⟨field, hfield, hok⟩ := bind_eq_ok.mp h
    cases hok
    rw [if_neg hne]
    exact sortBy_sorts p hfield fieldSql _

theorem sortPart_sorts {part : String}
    (h : sortPart U key allowedFields p part = .ok e) :
    e.filter.sorts = p.filter.sorts ++ elementSort U allowedFields part := by
  unfold sortPart at h
  exact sortTerm_sorts h

theorem sortParts_sorts {parts : List String}
    (h : parts.foldlM (sortPart U key allowedFields) p = .ok e) :
    e.filter.sorts = p.filter.sorts ++ parts.flatMap (elementSort U allowedFields) := by
  induction parts generalizing p with
  | nil =>
    cases h
    simp
  | cons part parts ih =>
    rw [List.foldlM_cons] at h
    obtain ⟨p', hpart, hrest⟩ := bind_eq_ok.mp h
    rw [ih hrest, sortPart_sorts hpart, List.flatMap_cons, List.append_assoc]

theorem sortSingle_sorts (h : sortSingle U key value allowedFields p = .ok e) :
    e.filter.sorts = p.filter.sorts ++ singleSort U allowedFields value := by
  simp only [sortSingle] at h
  simp only [singleSort]
  exact sortTerm_sorts h

theorem parsePlain_sorts (h : parsePlain U columnTypes allowedFields key value {} = .ok e) :
    e.filter.sorts =
      if toAsciiLowercase key ∈ ["orderby", "sort"] then
        if contains value ',' then (split value ',').flatMap (elementSort U allowedFields)
        else singleSort U allowedFields value
      else [] := by
  have hword {word : String} (heq : toAsciiLowercase key = word) (hno : word ∉ ["orderby", "sort"])
      (hsorts : e.filter.sorts = []) : e.filter.sorts =
        if toAsciiLowercase key ∈ ["orderby", "sort"] then
          if contains value ',' then (split value ',').flatMap (elementSort U allowedFields)
          else singleSort U allowedFields value
        else [] := by
    rw [heq, if_neg hno, hsorts]
  unfold parsePlain at h
  split at h
  case h_1 _ heq | h_2 _ heq =>
    rw [heq, if_pos (by decide)]
    split at h
    · rename_i hlist
      rw [if_pos hlist]
      exact (sortParts_sorts h).trans (List.nil_append _)
    · rename_i hlist
      rw [if_neg hlist]
      exact (sortSingle_sorts h).trans (List.nil_append _)
  case h_4 _ heq =>
    obtain ⟨columns, -, hok⟩ := bind_eq_ok.mp h
    cases hok
    exact hword heq (by decide) rfl
  case h_3 _ heq | h_11 _ heq | h_12 _ heq | h_13 _ heq | h_14 _ heq =>
    cases h
    exact hword heq (by decide) rfl
  case h_15 horder hsort _ _ _ _ _ _ _ _ _ _ _ _ =>
    refine hword rfl (fun hmem => (List.mem_pair.mp hmem).elim horder hsort) ?_
    split at h
    · cases h
      rfl
    · obtain ⟨field, -, hok⟩ := bind_eq_ok.mp h
      split at hok <;> cases hok <;> rfl
  all_goals
    rename_i heq
    refine hword heq (by decide) ?_
    split at h
    · cases h
      rfl
    · obtain ⟨n, -, hok⟩ := bind_eq_ok.mp h
      cases hok
      rfl

variable {operatorStr : String}

theorem parseOperator_sorts
    (hname : fieldOf U field key = .ok name) (hallow : allows allowedFields name = true)
    (h : parseOperator U columnTypes key value name operatorStr {} = .ok e) :
    e.filter.sorts =
      if toAsciiLowercase operatorStr = "orderby" then
        columnSort U allowedFields field fieldSql (SortDirection.fromStr value)
      else [] := by
  unfold parseOperator at h
  split at h
  · rename_i hs
    cases h
    rw [if_pos hs, columnSort, fieldOf_ok hname]
    simp [Option.filter, hallow, QueryFilter.addSort]
  · rename_i hs
    cases h
    rw [hs, if_neg (by simp)]
  · rename_i hs
    cases h
    rw [hs, if_neg (by simp)]
  · rename_i hs _ _
    rw [if_neg hs]
    split at h
    · cases h
      rfl
    · cases h

theorem parseBracket_sorts
    (h : parseBracket U columnTypes allowedFields key value field operatorStr {} = .ok e) :
    e.filter.sorts = bracketSort U allowedFields field operatorStr value := by
  obtain ⟨name, hname, hcases⟩ := parseBracket_cases h
  unfold bracketSort
  rw [fieldOf_ok hname, Option.any_some]
  rcases hcases with ⟨hallow, rfl⟩ | ⟨hallow, hsort, sortField, hfield, rfl⟩ | ⟨hallow, hsort, hok⟩
  · rw [if_neg (Bool.not_eq_true _ ▸ hallow)]
  · rw [if_pos hallow, if_pos hsort]
    exact (sortBy_sorts {} hfield id _).trans (List.nil_append _)
  · rw [if_pos hallow, if_neg (Bool.not_eq_true _ ▸ hsort)]
    exact parseOperator_sorts hname hallow hok

/-- An accepted parameter asks for its sorts and no other. -/
theorem asks_sorts {param : String × String} (h : asks U columnTypes allowedFields param = .ok e) :
    e.filter.sorts = sortsOf U allowedFields param := by
  simp only [asks, parseParam] at h
  unfold sortsOf
  split at h
  · rename_i hkey
    cases h
    rw [if_pos hkey]
  · rename_i hkey
    rw [if_neg hkey]
    cases hb : bracketOf param.1 with
    | some b =>
      obtain ⟨field, rest⟩ := b
      simp only [hb] at h
      split at h
      · exact parseBracket_sorts h
      · cases h
    | none =>
      simp only [hb] at h
      exact parsePlain_sorts h

/-- The columns of an accepted `searchfields` value. -/
theorem searchColumns_eq {columns : List String}
    (h : searchColumns U key value allowedFields = .ok columns) :
    columns = searchedColumns U allowedFields value := by
  obtain ⟨names, hnames, hok⟩ := bind_eq_ok.mp h
  cases hok
  unfold searchedColumns
  congr 1
  have hall := mapM_eq_ok.mp hnames
  clear hnames h
  generalize ((split value ',').map trim).filter (· ≠ "") = parts at hall ⊢
  induction hall with
  | nil => rfl
  | cons hname _ ih => rw [List.filterMap_cons, fieldOf_ok hname, ih]

/-- The fields of a filter that page. -/
def pagingSlots : List Slot := [.limit, .offset, .page]

/-- The number in a field that pages. -/
def Slot.count (slot : Slot) (q : QueryFilter) : Option ℕ :=
  match slot with
  | .limit => q.limit
  | .offset => q.offset
  | .page => q.page
  | _ => none

theorem countOf_ok {n : ℕ} (h : countOf key value = .ok n) : parseU32 (trim value) = some n := by
  unfold countOf at h
  split at h
  · rename_i m hm
    rw [hm, Except.ok.inj h]
  · cases h

/-- A parameter that pages asks for the number it carries. -/
theorem asks_count (hpaging : slot ∈ pagingSlots) {x : String × String} (hx : slotOf x = some slot)
    (h : asks U columnTypes allowedFields x = .ok e) :
    slot.count e.filter = parseU32 (trim x.2) := by
  obtain ⟨hkey, hb, hplain⟩ := slotOf_eq_some hx
  simp only [asks, parseParam, hkey, hb, Bool.false_eq_true, if_false] at h
  have hno {other : Slot} (hother : other ∉ pagingSlots) (heq : some other = some slot) :
      slot.count e.filter = parseU32 (trim x.2) :=
    absurd hpaging (Option.some.inj heq ▸ hother)
  unfold parsePlain at h
  split at h
  case h_1 _ heq | h_2 _ heq =>
    rw [heq] at hplain
    cases hplain
  case h_3 _ heq | h_4 _ heq | h_11 _ heq | h_12 _ heq | h_13 _ heq | h_14 _ heq =>
    rw [heq] at hplain
    exact hno (by decide) hplain
  case h_15 =>
    have hnone : plainSlot (toAsciiLowercase x.1) x.2 = none := by simp_all [plainSlot]
    rw [hnone] at hplain
    cases hplain
  all_goals
    rename_i heq
    rw [heq] at hplain
    simp only [plainSlot] at hplain
    split at h
    · rename_i hempty
      rw [if_pos hempty] at hplain
      cases hplain
    · rename_i hempty
      rw [if_neg hempty] at hplain
      obtain ⟨n, hn, hok⟩ := bind_eq_ok.mp h
      cases hplain
      cases hok
      exact (countOf_ok hn).symm

end Asks

/-! ## Orders of a request -/

section Order

variable {params : List (String × String)}

/-- A parameter that may be the last to set a field, or none when no parameter sets it. -/
def MaySet (slot : Slot) (params : List (String × String)) : Option (String × String) → Prop
  | none => ∀ y ∈ params, slotOf y ≠ some slot
  | some x => x ∈ params ∧ slotOf x = some slot

theorem maySet_lastParam (slot : Slot) (params : List (String × String)) :
    MaySet slot params (lastParam slot params) := by
  cases hlast : lastParam slot params with
  | none =>
    intro y hy hset
    have hempty := List.getLast?_eq_none_iff.mp hlast
    have hmem : y ∈ params.filter (slotOf · = some slot) :=
      List.mem_filter.mpr ⟨hy, decide_eq_true hset⟩
    rw [hempty] at hmem
    cases hmem
  | some x => exact mem_of_lastParam hlast

theorem maySet_congr {l' : List (String × String)} (h : l.Perm l') (slot : Slot)
    (x : Option (String × String)) : MaySet slot l x ↔ MaySet slot l' x := by
  cases x with
  | none => exact forall_congr' fun y => imp_congr_left h.mem_iff
  | some x => exact and_congr_left fun _ => h.mem_iff

/-- The parameters with one of them moved to the end. -/
def moveLast (params : List (String × String)) : Option (String × String) → List (String × String)
  | none => params
  | some x => params.erase x ++ [x]

theorem perm_moveLast (h : MaySet slot params x) : (moveLast params x).Perm params := by
  cases x with
  | none => exact .refl _
  | some x => exact List.perm_append_comm.trans (List.perm_cons_erase h.1).symm

theorem lastParam_moveLast (h : MaySet slot params x) : lastParam slot (moveLast params x) = x := by
  cases x with
  | none =>
    refine List.getLast?_eq_none_iff.mpr (List.filter_eq_nil_iff.mpr fun y hy => ?_)
    simpa using h y hy
  | some x => simp [moveLast, lastParam, List.filter_append, h.2]

variable {other : Slot}

/-- The last to set another field stays the last. -/
theorem lastParam_moveLast_of_ne (hne : slot ≠ other) (h : MaySet slot params x) :
    lastParam other (moveLast params x) = lastParam other params := by
  cases x with
  | none => rfl
  | some x =>
    have hx : x ∉ params.filter (slotOf · = some other) := by
      intro hmem
      have hother := of_decide_eq_true (List.mem_filter.mp hmem).2
      exact hne (Option.some.inj (h.2.symm.trans hother))
    simp [moveLast, lastParam, List.filter_append, h.2, hne, ← List.erase_filter,
      List.erase_of_not_mem hx]

/-- Some order ends on any two parameters that set different fields. -/
theorem exists_order (hne : slot ≠ other) {y : Option (String × String)}
    (hx : MaySet slot params x) (hy : MaySet other params y) :
    ∃ l : List (String × String), l.Perm params ∧ lastParam slot l = x ∧ lastParam other l = y := by
  have hperm := perm_moveLast hx
  have hy' := (maySet_congr hperm other y).mpr hy
  refine ⟨moveLast (moveLast params x) y, (perm_moveLast hy').trans hperm, ?_,
    lastParam_moveLast hy'⟩
  rw [lastParam_moveLast_of_ne hne.symm hy', lastParam_moveLast hx]

variable {α β : Type*} {f : α → List β} {l : List α}

/-- A list of lists that commute in pairs, put together, is the same in every order. -/
theorem flatMap_eq_of_perm {l' : List α}
    (hcomm : ∀ x ∈ l, ∀ y ∈ l, f x ++ f y = f y ++ f x) (h : l.Perm l') :
    l.flatMap f = l'.flatMap f := by
  induction h with
  | nil => rfl
  | cons x _ ih =>
    rw [List.flatMap_cons, List.flatMap_cons, ih fun a ha b hb =>
      hcomm a (List.mem_cons_of_mem _ ha) b (List.mem_cons_of_mem _ hb)]
  | swap x y l =>
    rw [List.flatMap_cons, List.flatMap_cons, List.flatMap_cons, List.flatMap_cons,
      ← List.append_assoc, ← List.append_assoc, hcomm y (by simp) x (by simp)]
  | trans h _ ih ih' =>
    exact (ih hcomm).trans (ih' fun a ha b hb => hcomm a (h.mem_iff.mpr ha) b (h.mem_iff.mpr hb))

/-- Put together in two orders, lists are the same only if they commute. -/
theorem commute_of_flatMap_eq [DecidableEq α]
    (h : ∀ l₁ l₂ : List α, l₁.Perm l → l₂.Perm l → l₁.flatMap f = l₂.flatMap f) :
    ∀ x ∈ l, ∀ y ∈ l, f x ++ f y = f y ++ f x := by
  intro x hx y hy
  by_cases hxy : x = y
  · rw [hxy]
  · have hy' : y ∈ l.erase x := (List.mem_erase_of_ne fun h => hxy h.symm).mpr hy
    have hperm : l.Perm (x :: y :: (l.erase x).erase y) :=
      (List.perm_cons_erase hx).trans ((List.perm_cons_erase hy').cons x)
    have hfront := h _ _ hperm.symm ((List.Perm.swap x y _).trans hperm.symm)
    simp only [List.flatMap_cons, ← List.append_assoc] at hfront
    exact List.append_cancel_right hfront

end Order

/-! ## The rows of a request -/

section Rows

variable {ρ : Type*} {M : Meaning ρ} {r : ρ}

/-- The row satisfies the conditions of a request: all that are joined by AND, or one of the
others. -/
def AskedHold (M : Meaning ρ) (r : ρ) (cs : List FilterCondition) : Prop :=
  (∀ c ∈ cs, c.Evaluates M) ∧
    (((∃ c ∈ cs, c.logical = .and) ∨ cs = []) ∧ (∀ c ∈ cs, c.logical = .and → c.HoldsAlone M r) ∨
      ∃ c ∈ cs, c.logical = .or ∧ c.HoldsAlone M r)

/-- The conditions of a request mean the same in every order. -/
theorem askedHold_congr {cs ds : List FilterCondition} (h : cs.Perm ds) :
    AskedHold M r cs ↔ AskedHold M r ds := by
  have hnil : cs = [] ↔ ds = [] := ⟨fun hc => (hc ▸ h).nil_eq.symm, fun hd => (hd ▸ h).eq_nil⟩
  simp only [AskedHold, h.mem_iff, hnil]

/-- ANDs with ORs behind them. -/
theorem conditionsHold_append {as os : List FilterCondition} (hand : ∀ c ∈ as, c.logical = .and)
    (hor : ∀ c ∈ os, c.logical = .or) :
    ConditionsHold M r (as ++ os) ↔
      (∀ c ∈ as ++ os, c.Evaluates M) ∧
        ((as ≠ [] ∨ os = []) ∧ (∀ c ∈ as, c.HoldsAlone M r) ∨ ∃ c ∈ os, c.HoldsAlone M r) := by
  have hands (l : List FilterCondition) (h : ∀ c ∈ l, c.logical = .and) :
      l.map (fun d => (d.logical.link, d)) = l.map fun d => (Link.and, d) :=
    List.map_congr_left fun d hd => by rw [h d hd]; rfl
  have hors (l : List FilterCondition) (h : ∀ c ∈ l, c.logical = .or) :
      l.map (fun d => (d.logical.link, d)) = l.map fun d => (Link.or, d) :=
    List.map_congr_left fun d hd => by rw [h d hd]; rfl
  cases as with
  | nil =>
    cases os with
    | nil => simp [ConditionsHold]
    | cons o os =>
      obtain ⟨-, hos⟩ := List.forall_mem_cons.mp hor
      rw [List.nil_append, ConditionsHold, hors os hos, ChainHolds, someRun_or]
      simp
  | cons a as =>
    obtain ⟨-, has⟩ := List.forall_mem_cons.mp hand
    rw [List.cons_append, ConditionsHold, List.map_append, hands as has, hors os hor, ChainHolds,
      someRun_append]
    simp [or_imp, forall_and]

/-- The conditions of a filter are those of the request, the OR ones last. -/
theorem conditionsHold_filter (cs : List FilterCondition) :
    ConditionsHold M r (cs.filter (·.logical = .and) ++ cs.filter (·.logical = .or)) ↔
      AskedHold M r cs := by
  have hcases (c : FilterCondition) : c.logical = .and ∨ c.logical = .or := by
    cases c.logical <;> simp
  rw [conditionsHold_append (by simp) (by simp), AskedHold]
  refine and_congr ?_ (or_congr (and_congr ?_ ?_) ?_)
  · simp only [List.mem_append, List.mem_filter, decide_eq_true_eq, ← and_or_left, hcases, and_true]
  · have hconj : cs.filter (·.logical = .and) ≠ [] ↔ ∃ c ∈ cs, c.logical = .and := by
      simp [List.filter_eq_nil_iff]
    rw [hconj, List.filter_eq_nil_iff]
    constructor
    · rintro (hand | hnone)
      · exact .inl hand
      · cases cs with
        | nil => exact .inr rfl
        | cons c cs =>
          have hc := (hcases c).resolve_right (by simpa using hnone c List.mem_cons_self)
          exact .inl ⟨c, List.mem_cons_self, hc⟩
    · rintro (hand | rfl)
      · exact .inl hand
      · exact .inr (by simp)
  · simp
  · simp [and_assoc]

/-- A condition that evaluates has all its parameters. -/
theorem FilterCondition.Parsed.full_of_evaluates {c : FilterCondition} (h : c.Parsed)
    (he : c.Evaluates M) : c.Full := by
  refine h.full ?_
  rw [← Bool.not_eq_true]
  intro hshort
  have hparams := h.params
  simp only [hshort, if_true] at hparams
  rw [FilterCondition.Evaluates, read_sql h.wellNamed] at he
  have hbound : c.slots ≤ c.getParams.length :=
    FilterCondition.bound_of_valid h.wellNamed he (by omega) (by omega)
  omega

end Rows

/-! ## Requests in any order -/

variable (U : CharTables) (columnTypes : ColumnTypes) (allowedFields : Option (List String))

/-- A search of its own, with the term of one parameter and the columns of another. -/
def askedSearch (term fields : Option (String × String)) : QueryFilter where
  search := term.map Prod.snd
  searchFields := (fields.map fun y => searchedColumns U allowedFields y.2).getD []

/-- Two filters select the same rows of any table, sort by the same columns in the same priority, and
page alike. -/
structure QueryFilter.Alike (q q' : QueryFilter) : Prop where
  rows : ∀ (ρ : Type) (M : Meaning ρ) (r : ρ),
    selects M q.buildWhereClause.2 q.buildWhereClause.1 r ↔
      selects M q'.buildWhereClause.2 q'.buildWhereClause.1 r
  sorts : q.sorts = q'.sorts
  limit : q.limit = q'.limit
  offset : q.offset = q'.offset
  page : q.page = q'.page

/-- In any two orders a request is refused both times, or read alike. -/
def OrderFree (params : List (String × String)) : Prop :=
  ∀ l l' : List (String × String), l.Perm params → l'.Perm params →
    ((∃ err, parseFilters U l columnTypes allowedFields = .error err) ∧
        ∃ err, parseFilters U l' columnTypes allowedFields = .error err) ∨
      ∃ q q', parseFilters U l columnTypes allowedFields = .ok q ∧
        parseFilters U l' columnTypes allowedFields = .ok q' ∧ q.Alike q'

/-- No two parameters of a request ask for different things in one place. -/
structure Unanimous (params : List (String × String)) : Prop where
  /-- Whichever of two parameters comes first, the sorts are the same. -/
  sorts : ∀ x ∈ params, ∀ y ∈ params,
    sortsOf U allowedFields x ++ sortsOf U allowedFields y =
      sortsOf U allowedFields y ++ sortsOf U allowedFields x
  /-- Parameters that set one paging field carry the same number. -/
  paging : ∀ slot ∈ pagingSlots, ∀ x ∈ params, ∀ y ∈ params,
    slotOf x = some slot → slotOf y = some slot → parseU32 (trim x.2) = parseU32 (trim y.2)
  /-- Whichever of the terms and of the columns stay, the search finds the same among the rows that
  satisfy the conditions. -/
  searches : ∀ x x' y y', MaySet .search params x → MaySet .search params x' →
    MaySet .searchFields params y → MaySet .searchFields params y' →
      ∀ (ρ : Type) (M : Meaning ρ) (r : ρ),
        AskedHold M r (params.filterMap (conditionOf U columnTypes allowedFields)) →
          (SearchHolds M (askedSearch U allowedFields x y) r ↔
            SearchHolds M (askedSearch U allowedFields x' y') r)

section Request

variable {U columnTypes allowedFields} {params : List (String × String)} {q : QueryFilter}
  {l' : List (String × String)}

section Filter

variable (h : parseFilters U params columnTypes allowedFields = .ok q)
include h

theorem sorts_eq_flatMap : q.sorts = params.flatMap (sortsOf U allowedFields) := by
  obtain ⟨parts, hparts, hq⟩ := parseFilters_gathered h
  rw [hq.sorts]
  have hall := mapM_eq_ok.mp hparts
  clear hparts hq h
  induction hall with
  | nil => rfl
  | cons hx _ ih => rw [List.flatMap_cons, List.flatMap_cons, asks_sorts (partOf_eq_ok.mp hx).2, ih]

theorem count_eq (hpaging : slot ∈ pagingSlots) :
    slot.count q = (lastParam slot params).bind fun x => parseU32 (trim x.2) := by
  have hcount (q : QueryFilter) : slot.count (slot.value q) = slot.count q := by
    cases slot <;> rfl
  rcases value_parseFilters h slot with ⟨hlast, hvalue⟩ | ⟨x, e, hlast, he, hvalue⟩
  · rw [hlast, ← hcount q, hvalue, hcount]
    cases slot <;> rfl
  · rw [hlast, ← hcount q, hvalue, hcount, Option.bind_some]
    exact asks_count hpaging (mem_of_lastParam hlast).2 he

variable {ρ : Type*} {M : Meaning ρ}

/-- The search of a filter is that of the last parameters that set it. -/
theorem searchHolds_iff {r : ρ} :
    SearchHolds M q r ↔ SearchHolds M
      (askedSearch U allowedFields (lastParam .search params) (lastParam .searchFields params)) r := by
  have hfields : q.searchFields = ((lastParam .searchFields params).map fun y =>
      searchedColumns U allowedFields y.2).getD [] := by
    rcases searchFields_eq h with ⟨hlast, hnone⟩ | ⟨x, hlast, hcolumns⟩
    · rw [hlast, hnone]
      rfl
    · rw [hlast, searchColumns_eq hcolumns]
      rfl
  unfold SearchHolds QueryFilter.activeSearch askedSearch
  simp only [search_eq h, hfields]

/-- The rows of an accepted request: those its search finds among those that satisfy its
conditions. -/
theorem selects_parsed (htypes : ∀ t ∈ columnTypes, TypeName t.2)
    {r : ρ} :
    selects M q.buildWhereClause.2 q.buildWhereClause.1 r ↔
      SearchHolds M q r ∧
        AskedHold M r (params.filterMap (conditionOf U columnTypes allowedFields)) := by
  obtain ⟨hparsed, hsearch, -, hbase, -⟩ := parseFilters_ok htypes h
  have hbase' : ∀ b ∈ q.baseConditions, SelfContained b := by simp [hbase]
  have hnamed : ∀ c ∈ q.conditions, c.WellNamed := fun c hc => (hparsed c hc).wellNamed
  have hclient : ClientHolds M q r ↔
      AskedHold M r (params.filterMap (conditionOf U columnTypes allowedFields)) := by
    rw [ClientHolds, parseFilters_conditions h, conditionsHold_filter]
  have hfaithful (hfull : ∀ c ∈ q.conditions, c.Full) :
      selects M q.buildWhereClause.2 q.buildWhereClause.1 r ↔
        SearchHolds M q r ∧ ClientHolds M q r := by
    rw [(faithful_of_full (M := M) hbase' hsearch hnamed hfull).selects_iff r, FilterHolds, BaseHolds,
      hbase]
    simp
  constructor
  · intro hrow
    have hfull := full_of_selects hbase' hsearch hparsed hrow
    exact (hfaithful hfull).mp hrow |>.imp_right hclient.mp
  · rintro ⟨hfound, hasked⟩
    have hfull : ∀ c ∈ q.conditions, c.Full := fun c hc => by
      obtain ⟨x, hx, hcond⟩ := (mem_conditions_iff h).mp hc
      exact (hparsed c hc).full_of_evaluates
        (hasked.1 c (List.mem_filterMap.mpr ⟨x, hx, hcond⟩))
    exact (hfaithful hfull).mpr ⟨hfound, hclient.mpr hasked⟩

end Filter

/-- Whether a request is refused does not depend on its order. -/
theorem accepted_of_perm (hperm : l.Perm params)
    (h : parseFilters U params columnTypes allowedFields = .ok q) :
    ∃ q', parseFilters U l columnTypes allowedFields = .ok q' :=
  exists_parseFilters_iff.mpr fun x hx => exists_parseFilters_iff.mp ⟨q, h⟩ x (hperm.mem_iff.mp hx)

theorem orderFree_of_refused {err : QueryParamError}
    (h : parseFilters U params columnTypes allowedFields = .error err) :
    OrderFree U columnTypes allowedFields params := by
  have hrefused {l : List (String × String)} (hperm : l.Perm params) :
      ∃ err, parseFilters U l columnTypes allowedFields = .error err := by
    cases hl : parseFilters U l columnTypes allowedFields with
    | error err => exact ⟨err, rfl⟩
    | ok q =>
      obtain ⟨q', hq'⟩ := accepted_of_perm hperm.symm hl
      rw [h] at hq'
      cases hq'
  exact fun l l' hl hl' => .inl ⟨hrefused hl, hrefused hl'⟩

/-- The numbers of a field that pages agree, whichever parameter sets it last. -/
theorem Unanimous.count (h : Unanimous U columnTypes allowedFields params)
    (hpaging : slot ∈ pagingSlots) {y : Option (String × String)} (hx : MaySet slot params x)
    (hy : MaySet slot params y) :
    (x.bind fun x => parseU32 (trim x.2)) = y.bind fun y => parseU32 (trim y.2) := by
  cases x with
  | none =>
    cases y with
    | none => rfl
    | some y => exact absurd hy.2 (hx y hy.1)
  | some x =>
    cases y with
    | none => exact absurd hx.2 (hy x hx.1)
    | some y =>
      rw [Option.bind_some, Option.bind_some]
      exact h.paging slot hpaging x hx.1 y hy.1 hx.2 hy.2

variable {q q' : QueryFilter}

/-- A request whose parameters do not get in each other's way is read alike in any two orders. -/
theorem Unanimous.alike (h : Unanimous U columnTypes allowedFields params)
    (htypes : ∀ t ∈ columnTypes, TypeName t.2) (hl : l.Perm params)
    (hl' : l'.Perm params)
    (hq : parseFilters U l columnTypes allowedFields = .ok q)
    (hq' : parseFilters U l' columnTypes allowedFields = .ok q') : q.Alike q' := by
  have hlast {l : List (String × String)} (hl : l.Perm params) (slot : Slot) :
      MaySet slot params (lastParam slot l) :=
    (maySet_congr hl slot _).mp (maySet_lastParam slot l)
  have hcount (slot : Slot) (hpaging : slot ∈ pagingSlots) : slot.count q = slot.count q' := by
    rw [count_eq hq hpaging, count_eq hq' hpaging]
    exact h.count hpaging (hlast hl slot) (hlast hl' slot)
  refine ⟨fun ρ M r => ?_, ?_, hcount .limit (by decide), hcount .offset (by decide),
    hcount .page (by decide)⟩
  · rw [selects_parsed hq htypes, selects_parsed hq' htypes, searchHolds_iff hq, searchHolds_iff hq',
      askedHold_congr (hl.filterMap _), askedHold_congr (hl'.filterMap _)]
    refine and_congr_left fun hasked => ?_
    exact h.searches _ _ _ _ (hlast hl _) (hlast hl' _) (hlast hl _) (hlast hl' _) ρ M r hasked
  · rw [sorts_eq_flatMap hq, sorts_eq_flatMap hq']
    refine flatMap_eq_of_perm (fun x hx y hy => ?_) (hl.trans hl'.symm)
    exact h.sorts x (hl.mem_iff.mp hx) y (hl.mem_iff.mp hy)

/-- Two orders in which an order-free request is accepted. -/
theorem OrderFree.alike (h : OrderFree U columnTypes allowedFields params)
    (hl : l.Perm params) (hl' : l'.Perm params)
    (hq : parseFilters U l columnTypes allowedFields = .ok q)
    (hq' : parseFilters U l' columnTypes allowedFields = .ok q') : q.Alike q' := by
  rcases h l l' hl hl' with ⟨⟨err, herr⟩, -⟩ | ⟨p, p', hp, hp', hsame⟩
  · rw [hq] at herr
    cases herr
  · rw [Except.ok.inj (hq.symm.trans hp), Except.ok.inj (hq'.symm.trans hp')]
    exact hsame

/-- A request that is read alike in any two orders has no parameters that get in each other's
way. -/
theorem OrderFree.unanimous (h : OrderFree U columnTypes allowedFields params)
    (htypes : ∀ t ∈ columnTypes, TypeName t.2)
    (hok : parseFilters U params columnTypes allowedFields = .ok q) :
    Unanimous U columnTypes allowedFields params := by
  have halike {l l' : List (String × String)} (hl : l.Perm params) (hl' : l'.Perm params) :
      ∃ q q', parseFilters U l columnTypes allowedFields = .ok q ∧
        parseFilters U l' columnTypes allowedFields = .ok q' ∧ q.Alike q' := by
    obtain ⟨q, hq⟩ := accepted_of_perm hl hok
    obtain ⟨q', hq'⟩ := accepted_of_perm hl' hok
    exact ⟨q, q', hq, hq', h.alike hl hl' hq hq'⟩
  refine ⟨?_, fun slot hpaging x hx y hy hsx hsy => ?_,
    fun x x' y y' hx hx' hy hy' ρ M r hasked => ?_⟩
  · refine commute_of_flatMap_eq fun l l' hl hl' => ?_
    obtain ⟨q, q', hq, hq', hsame⟩ := halike hl hl'
    rw [← sorts_eq_flatMap hq, ← sorts_eq_flatMap hq', hsame.sorts]
  · -- One order ends on the one parameter, another on the other.
    have hne : slot ≠ .search := by
      rintro rfl
      exact absurd hpaging (by decide)
    obtain ⟨l, hl, hlx, -⟩ := exists_order hne (x := some x) ⟨hx, hsx⟩ (maySet_lastParam _ params)
    obtain ⟨l', hl', hly, -⟩ := exists_order hne (x := some y) ⟨hy, hsy⟩ (maySet_lastParam _ params)
    obtain ⟨q, q', hq, hq', hsame⟩ := halike hl hl'
    have hcount : slot.count q = slot.count q' := by
      simp only [pagingSlots, List.mem_cons, List.not_mem_nil, or_false] at hpaging
      rcases hpaging with rfl | rfl | rfl
      · exact hsame.limit
      · exact hsame.offset
      · exact hsame.page
    rw [count_eq hq hpaging, count_eq hq' hpaging, hlx, hly, Option.bind_some,
      Option.bind_some] at hcount
    exact hcount
  · obtain ⟨l, hl, hlx, hly⟩ := exists_order (by decide) hx hy
    obtain ⟨l', hl', hlx', hly'⟩ := exists_order (by decide) hx' hy'
    obtain ⟨q, q', hq, hq', hsame⟩ := halike hl hl'
    have hrows := hsame.rows ρ M r
    rw [selects_parsed hq htypes, selects_parsed hq' htypes, searchHolds_iff hq, searchHolds_iff hq',
      askedHold_congr (hl.filterMap _), askedHold_congr (hl'.filterMap _), hlx, hly, hlx',
      hly'] at hrows
    exact and_congr_left_iff.mp hrows hasked

end Request

/-- A refused request is refused in every order. One that is accepted is read alike in every order
exactly when no two of its parameters ask for different things in one place: sorts whose order shows,
numbers for one paging field, or searches that find different rows. -/
theorem order_free_iff {U : CharTables} {columnTypes : ColumnTypes}
    (htypes : ∀ t ∈ columnTypes, TypeName t.2) (allowedFields : Option (List String))
    (params : List (String × String)) :
    (∀ err, parseFilters U params columnTypes allowedFields = .error err →
        OrderFree U columnTypes allowedFields params) ∧
      ∀ q, parseFilters U params columnTypes allowedFields = .ok q →
        (OrderFree U columnTypes allowedFields params ↔
          Unanimous U columnTypes allowedFields params) := by
  refine ⟨fun err => orderFree_of_refused, fun q hok => ⟨fun h => h.unanimous htypes hok,
    fun h l l' hl hl' => ?_⟩⟩
  obtain ⟨ql, hql⟩ := accepted_of_perm hl hok
  obtain ⟨ql', hql'⟩ := accepted_of_perm hl' hok
  exact .inr ⟨ql, ql', hql, hql', h.alike htypes hl hl' hql hql'⟩

/-- One sort, and one number under two names of the limit. -/
theorem order_free_one_sort :
    OrderFree asciiTables [("rank", "bigint")] none
      [("sort", "-rank"), ("limit", "5"), ("perpage", "5"), ("rank[gt]", "3")] := by
  have htypes : ∀ t ∈ [("rank", "bigint")], TypeName t.2 := by
    simp only [List.mem_singleton, forall_eq]
    exact ⟨rfl, by decide, rfl, ⟨_, _, rfl, by decide⟩⟩
  have hnone (slot : Slot) (hslot : slot = .search ∨ slot = .searchFields)
      (x : Option (String × String))
      (hx : MaySet slot [("sort", "-rank"), ("limit", "5"), ("perpage", "5"), ("rank[gt]", "3")] x) :
      x = none := by
    cases x with
    | none => rfl
    | some x =>
      have hunset : ∀ x ∈ [("sort", "-rank"), ("limit", "5"), ("perpage", "5"), ("rank[gt]", "3")],
          slotOf x ≠ some .search ∧ slotOf x ≠ some .searchFields := by decide
      rcases hslot with rfl | rfl
      · exact absurd hx.2 (hunset x hx.1).1
      · exact absurd hx.2 (hunset x hx.1).2
  refine ((order_free_iff htypes none _).2 _ rfl).mpr ⟨by decide, by decide, ?_⟩
  intro x x' y y' hx hx' hy hy' ρ M r _
  rw [hnone _ (.inl rfl) x hx, hnone _ (.inl rfl) x' hx', hnone _ (.inr rfl) y hy,
    hnone _ (.inr rfl) y' hy']

/-- Two sorts come in the order of the parameters, and of two limits the last stays. -/
theorem not_order_free :
    ¬ OrderFree asciiTables [] none [("orderby", "name"), ("sort", "age")] ∧
      ¬ OrderFree asciiTables [] none [("limit", "1"), ("perpage", "2")] := by
  have hswap (x y : String × String) : [y, x].Perm [x, y] := .swap x y []
  refine ⟨fun h => ?_, fun h => ?_⟩
  · have hone : parseFilters asciiTables [("orderby", "name"), ("sort", "age")] [] none =
        .ok { sorts := [⟨"name", .asc⟩, ⟨"age", .asc⟩] } := by decide
    have htwo : parseFilters asciiTables [("sort", "age"), ("orderby", "name")] [] none =
        .ok { sorts := [⟨"age", .asc⟩, ⟨"name", .asc⟩] } := by decide
    have hsorts := (h.alike (.refl _) (hswap _ _) hone htwo).sorts
    revert hsorts
    decide
  · have hone : parseFilters asciiTables [("limit", "1"), ("perpage", "2")] [] none =
        .ok { limit := some 2 } := by decide
    have htwo : parseFilters asciiTables [("perpage", "2"), ("limit", "1")] [] none =
        .ok { limit := some 1 } := by decide
    have hlimit := (h.alike (.refl _) (hswap _ _) hone htwo).limit
    revert hlimit
    decide

end Backbone.Orm
