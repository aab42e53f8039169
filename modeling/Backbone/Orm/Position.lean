import Backbone.Lib.Table
import Backbone.Orm.KeysetSql
import Backbone.Orm.ListQuery

/-!
# Positions in a list

A cursor keeps a row's position as texts: each sort column decoded by the driver and printed, and
read back by the database when the keyset predicate compares with it. `Table.Keyable` is what that
takes of a column. Over such columns a row without NULLs has a cursor, which decodes to its position
(`rowCursor_eq`), and the keyset predicate of that position holds of exactly the rows after it
(`holds_position`).
-/

namespace Backbone.Orm

open Sql Keyset

/-! ## Cursors -/

variable {ρ : Type} {V : String → Type}

/-- The cast of a column. -/
def Table.castOf (T : Table ρ V) (f : String) : Option String := (T.column f).bind castSuffix

/-- The text the driver prints for a row's column. -/
def Table.textOf (T : Table ρ V) (row : ρ) (f : String) : Option String :=
  (T.tryGet (decodeOf ((T.castOf f).getD "")) row f).join

/-- A row's position in the order. -/
def Table.position (T : Table ρ V) (row : ρ) (sorts : List SortSpec) : Option CursorPayload :=
  (T.textOf row keyColumn).bind fun id =>
    (sorts.mapM fun s => T.textOf row s.field).map fun texts =>
      positionOf sorts (texts.map .string) id

/-- The casts a page resolves: those of the order, or none at all when the key alone is sorted by. -/
def Table.Casts (T : Table ρ V) (sorts : List SortSpec) (casts : List (Option String)) : Prop :=
  casts = T.sortColumnCasts sorts ∨ casts = [] ∧ ∀ s ∈ sorts, s.field = keyColumn

section Cursors

variable {T : Table ρ V} {J : Json} {sorts : List SortSpec} {casts : List (Option String)} {b : ρ}
  (huuid : T.castOf keyColumn = some "uuid")
include huuid

/-- Whichever casts were resolved, the texts are the same. -/
theorem boundaryText_eq (h : T.Casts sorts casts) {s : SortSpec} {i : ℕ}
    (hi : (s, i) ∈ sorts.zipIdx) : T.boundaryText b casts s.field i = T.textOf b s.field := by
  have hs : sorts[i]? = some s := by simpa using List.mk_mem_zipIdx_iff_getElem?.mp hi
  unfold Table.boundaryText Table.textOf
  rcases h with rfl | ⟨rfl, hkey⟩
  · have hcast : ((T.sortColumnCasts sorts)[i]?).join = T.castOf s.field := by
      simp [Table.sortColumnCasts, Table.castOf, hs]
    have hnot : ¬ (s.field = "id" ∧ (T.castOf s.field).getD "" = "") := by
      rintro ⟨hid, hempty⟩
      rw [hid, show "id" = keyColumn from rfl, huuid] at hempty
      exact absurd hempty (by decide)
    simp only [hcast, if_neg hnot]
  · have hfield := hkey s (List.fst_mem_of_mem_zipIdx hi)
    rw [hfield, huuid]
    rfl

/-- A row's cursor is its position, encoded. -/
theorem rowCursor_eq_position (h : T.Casts sorts casts) :
    T.rowCursor J b sorts casts = (T.textOf b keyColumn).bind fun id =>
      (sorts.mapM fun s => T.textOf b s.field).bind fun texts =>
        (encodeCursor J sorts (texts.map .string) id).toOption := by
  have hid : (T.tryGet .uuid b "id").join = T.textOf b keyColumn := by
    rw [Table.textOf, huuid]
    rfl
  have htexts : (sorts.zipIdx.mapM fun s => T.boundaryText b casts s.1.field s.2) =
      sorts.mapM fun s => T.textOf b s.field := by
    rw [mapM_congr (g := fun s => T.textOf b s.1.field) fun s hs => boundaryText_eq huuid h hs]
    have hmap := List.mapM_map (f := Prod.fst) (g := fun s : SortSpec => T.textOf b s.field)
      (l := sorts.zipIdx)
    exact hmap.symm.trans (by rw [List.zipIdx_map_fst])
  rw [Table.rowCursor, hid, htexts]
  rfl

end Cursors

/-! ## What a column must do -/

/-- A comparison with a value, unknown on NULL. -/
def compareNull {α : Type} [LinearOrder α] (op : FilterOperator) (y : Option α) (x : α) : Truth :=
  match y with
  | none => .unknown
  | some y =>
    let test : Bool := match op with
      | .equal => y = x
      | .greaterThan => x < y
      | .lessThan => y < x
      | _ => false
    if test then .yes else .no

variable [∀ f, LinearOrder (V f)]

/-- A comparison of a column with one bound value. -/
def comparison (f : String) (op : FilterOperator) (v : String) (cast : Option String) :
    FilterCondition where
  field := f
  operator := op
  value := .single v
  columnType := cast

/-- A column positions can be kept in. -/
structure Table.Keyable (T : Table ρ V) (f : String) : Prop where
  /-- The cast names a type. -/
  cast : ∀ t ∈ T.castOf f, TypeName t
  /-- The driver prints NULL as nothing. -/
  null : ∀ r ∈ T.rows, T.value r f = none → T.textOf r f = none
  /-- It prints every other value, and the database reads the text back as the value. -/
  text : ∀ r ∈ T.rows, ∀ x, T.value r f = some x →
    ∃ t, T.textOf r f = some t ∧ T.input f (T.castOf f) t = some x
  /-- The database compares the column with the value of the bound text. -/
  compares : ∀ op, Compares op → ∀ v,
    (read ((comparison f op v (T.castOf f)).sql 1)).bind (Cond.eval T.meaning [v]) =
      (T.input f (T.castOf f) v).map fun x r => compareNull op (T.value r f) x

/-- A table that can be listed in the order. -/
structure Table.Sortable (T : Table ρ V) (sorts : List SortSpec) : Prop where
  /-- The key is a uuid, -/
  uuid : T.castOf keyColumn = some "uuid"
  /-- is never NULL -/
  present : ∀ r ∈ T.rows, (T.value r keyColumn).isSome
  /-- and unique. -/
  unique : T.rows.Pairwise fun a b => T.value a keyColumn ≠ T.value b keyColumn
  /-- Positions can be kept in the columns of the order. -/
  columns : ∀ s ∈ sorts, T.Keyable s.field

/-! ## Rows with a position -/

section Positions

variable {T : Table ρ V} {J : Json} {sorts : List SortSpec} {casts : List (Option String)} {b : ρ}
  (hT : T.Sortable sorts) (hb : b ∈ T.rows) {backwards : Bool}
include hT hb

/-- A row without NULLs in the order has a text for each of its columns. -/
theorem texts_of_keyed (hkeyed : keyed T.value (orderBy sorts backwards) b) :
    ∃ texts, sorts.mapM (fun s => T.textOf b s.field) = some texts := by
  have htext : ∀ s ∈ sorts, (T.textOf b s.field).isSome := by
    intro s hs
    simp only [keyed, orderBy, List.all_map, List.all_eq_true, Function.comp_apply] at hkeyed
    obtain ⟨x, hx⟩ := Option.isSome_iff_exists.mp (hkeyed s hs)
    obtain ⟨t, ht, -⟩ := (hT.columns s hs).text b hb x hx
    rw [ht]
    rfl
  clear hkeyed hT
  induction sorts with
  | nil => exact ⟨[], rfl⟩
  | cons s sorts ih =>
    obtain ⟨hs, hsorts⟩ := List.forall_mem_cons.mp htext
    obtain ⟨t, ht⟩ := Option.isSome_iff_exists.mp hs
    obtain ⟨texts, htexts⟩ := ih hsorts
    exact ⟨t :: texts, by rw [List.mapM_cons, ht, htexts]; rfl⟩

/-- A row with a NULL in the order has none for some column. -/
theorem keyed_of_texts {texts : List String}
    (h : sorts.mapM (fun s => T.textOf b s.field) = some texts) :
    keyed T.value (orderBy sorts backwards) b := by
  simp only [keyed, orderBy, List.all_map, List.all_eq_true, Function.comp_apply]
  intro s hs
  obtain ⟨t, -, ht⟩ := Backbone.Table.exists_of_mem_left (mapM_eq_some.mp h) hs
  by_contra hnull
  rw [Option.not_isSome_iff_eq_none] at hnull
  rw [(hT.columns s hs).null b hb hnull] at ht
  cases ht

/-- The key of a row has a text. -/
theorem text_of_key (hkey : ∃ s ∈ sorts, s.field = keyColumn) :
    ∃ id x, T.textOf b keyColumn = some id ∧ T.value b keyColumn = some x ∧
      T.input keyColumn (some "uuid") id = some x := by
  obtain ⟨s, hs, hfield⟩ := hkey
  obtain ⟨x, hx⟩ := Option.isSome_iff_exists.mp (hT.present b hb)
  have hcol := hT.columns s hs
  rw [hfield] at hcol
  obtain ⟨id, hid, hinput⟩ := hcol.text b hb x hx
  rw [hT.uuid] at hinput
  exact ⟨id, x, hid, hx, hinput⟩

/-- A row without NULLs in the order has a cursor, and the cursor keeps its position. -/
theorem rowCursor_of_keyed (hkey : ∃ s ∈ sorts, s.field = keyColumn) (hcasts : T.Casts sorts casts)
    (hJ : ∀ p, T.position b sorts = some p → J.RoundTrips p)
    (hkeyed : keyed T.value (orderBy sorts backwards) b) :
    ∃ text p, T.rowCursor J b sorts casts = some text ∧ decodeCursor J text sorts = .ok p ∧
      T.position b sorts = some p := by
  obtain ⟨id, -, hid, -, -⟩ := text_of_key hT hb hkey
  obtain ⟨texts, htexts⟩ := texts_of_keyed hT hb hkeyed
  have hpos : T.position b sorts = some (positionOf sorts (texts.map .string) id) := by
    rw [Table.position, hid, htexts]
    rfl
  have hlen : sorts.length = (texts.map BoundaryValue.string).length := by
    rw [List.length_map]
    exact (mapM_eq_some.mp htexts).length_eq
  obtain ⟨text, hencode, hdecode⟩ := decodeCursor_encodeCursor hlen (hJ _ hpos)
  refine ⟨text, _, ?_, hdecode, hpos⟩
  rw [rowCursor_eq_position hT.uuid hcasts, hid, htexts, Option.bind_some, Option.bind_some, hencode]
  rfl

/-- A row with a NULL in the order has no cursor. -/
theorem rowCursor_of_null (hcasts : T.Casts sorts casts)
    (hnull : keyed T.value (orderBy sorts backwards) b = false) :
    T.rowCursor J b sorts casts = none := by
  have htexts : sorts.mapM (fun s => T.textOf b s.field) = none := by
    cases h : sorts.mapM (fun s => T.textOf b s.field) with
    | none => rfl
    | some texts =>
      rw [keyed_of_texts hT hb h] at hnull
      cases hnull
  rw [rowCursor_eq_position hT.uuid hcasts, htexts]
  cases T.textOf b keyColumn <;> rfl

end Positions

/-! ## The keyset predicate of a position -/

/-- A key column of the predicate compares with a row in a key of the order. -/
structure Measures (T : Table ρ V) (b : ρ) (c : KeyColumn) (k : Key String) : Prop where
  evaluates : ∀ op, Compares op → (c.cond op).Evaluates T.meaning
  equals : ∀ r, (c.cond .equal).HoldsAlone T.meaning r ↔ k.equals T.value b r
  past : ∀ r, (c.cond c.strict).HoldsAlone T.meaning r ↔ k.past T.value b r

section Measures

variable {T : Table ρ V} {b : ρ} {f t : String}

theorem Table.Keyable.eval_cond (h : T.Keyable f) {op strict : FilterOperator}
    (hop : Compares op) {x : V f} (ht : T.input f (T.castOf f) t = some x) :
    let c : KeyColumn := ⟨f, strict, t, T.castOf f⟩
    (read ((c.cond op).sql 1)).bind (Cond.eval T.meaning (c.cond op).getParams) =
      some fun r => compareNull op (T.value r f) x := by
  intro c
  have hparams : (c.cond op).getParams = [t] := c.getParams_cond hop
  have hcompares := h.compares op hop t
  rw [ht] at hcompares
  rw [hparams]
  exact hcompares

/-- A text the database reads as the row's value measures the row. -/
theorem Table.Keyable.measures (h : T.Keyable f) {x : V f}
    (hx : T.value b f = some x) (ht : T.input f (T.castOf f) t = some x) (descending : Bool) :
    Measures T b ⟨f, if descending then .lessThan else .greaterThan, t, T.castOf f⟩
      ⟨f, descending⟩ where
  evaluates op hop := by
    rw [FilterCondition.Evaluates, valid, h.eval_cond hop ht]
    rfl
  equals r := by
    rw [FilterCondition.HoldsAlone, holds, h.eval_cond (.inl rfl) ht]
    simp only [Key.equals, hx, Option.any_some, decide_eq_true_eq]
    cases hr : T.value r f <;> simp [compareNull, eq_comm]
  past r := by
    have hop : Compares (if descending then .lessThan else .greaterThan) := by
      cases descending <;> simp [Compares]
    rw [FilterCondition.HoldsAlone, holds, h.eval_cond hop ht]
    simp only [Key.past, hx, Option.any_some, decide_eq_true_eq]
    cases descending <;> cases hr : T.value r f <;> simp [compareNull]

/-- The comparison the predicate spells is the one of the order. -/
theorem lexHolds_iff {cols : List KeyColumn} {ks : List (Key String)}
    (h : List.Forall₂ (Measures T b) cols ks) (r : ρ) :
    LexHolds (fun d => d.HoldsAlone T.meaning r) cols ↔ after T.value ks b r := by
  induction h with
  | nil => simp [LexHolds, after]
  | cons hck _ ih => rw [LexHolds, after_cons, hck.past, hck.equals, ih]

end Measures

section Predicate

variable {T : Table ρ V} {sorts : List SortSpec} {b : ρ} {p : CursorPayload}

/-- The direction of a comparison follows the sort's. -/
theorem strictOperator_eq (d : SortDirection) (backwards : Bool) :
    strictOperator (d.code == 0) backwards =
      if (d == .desc) != backwards then .lessThan else .greaterThan := by
  cases d <;> cases backwards <;> rfl

omit [∀ f, LinearOrder (V f)] in
/-- A position, taken apart. -/
theorem position_eq_some (h : T.position b sorts = some p) :
    ∃ texts id, sorts.mapM (fun s => T.textOf b s.field) = some texts ∧
      T.textOf b keyColumn = some id ∧ p = positionOf sorts (texts.map .string) id := by
  obtain ⟨id, hid, hrest⟩ := Option.bind_eq_some_iff.mp h
  obtain ⟨texts, htexts, rfl⟩ := Option.map_eq_some_iff.mp hrest
  exact ⟨texts, id, htexts, hid, rfl⟩

/-- The columns of a position measure its row in the keys of the order. -/
theorem measures_columns (hT : T.Sortable sorts) (hb : b ∈ T.rows)
    (hp : T.position b sorts = some p) (backwards : Bool) :
    List.Forall₂ (Measures T b) (p.columns (T.sortColumnCasts sorts) backwards)
      (orderBy sorts backwards) := by
  obtain ⟨texts, id, htexts, -, rfl⟩ := position_eq_some hp
  have hkeyed : keyed T.value (orderBy sorts backwards) b := keyed_of_texts hT hb htexts
  simp only [keyed, orderBy, List.all_map, List.all_eq_true, Function.comp_apply] at hkeyed
  obtain ⟨hlen, hget⟩ := List.forall₂_iff_get.mp (mapM_eq_some.mp htexts)
  refine List.forall₂_of_length_eq_of_get (by simp [CursorPayload.columns, positionOf, orderBy]) ?_
  intro i h₁ h₂
  have hi : i < sorts.length := by simpa [orderBy] using h₂
  have hs := List.getElem_mem hi
  obtain ⟨x, hx⟩ := Option.isSome_iff_exists.mp (hkeyed _ hs)
  obtain ⟨t, ht, hinput⟩ := (hT.columns _ hs).text b hb x hx
  have htext : texts[i]? = some t := by
    have hi' : i < texts.length := hlen ▸ hi
    have := hget i hi hi'
    rw [List.getElem?_eq_getElem hi', ← ht]
    exact this.symm
  have hmeasures := (hT.columns _ hs).measures hx hinput ((sorts[i].direction == .desc) != backwards)
  have hcol : ((positionOf sorts (texts.map .string) id).columns (T.sortColumnCasts sorts)
      backwards).get ⟨i, h₁⟩ =
        ⟨sorts[i].field, if (sorts[i].direction == .desc) != backwards then .lessThan
          else .greaterThan, t, T.castOf sorts[i].field⟩ := by
    rw [← strictOperator_eq]
    simp [CursorPayload.columns, positionOf, htext, hi, valueAsText, Table.sortColumnCasts,
      Table.castOf]
  have horder : (orderBy sorts backwards).get ⟨i, h₂⟩ =
      ⟨sorts[i].field, (sorts[i].direction == .desc) != backwards⟩ := by
    simp [orderBy]
  rw [hcol, horder]
  exact hmeasures

/-- The key columns of a position measure its row in the keys of the order, and in the key once more
when the order does not end on it. -/
theorem measures_keyColumns (hT : T.Sortable sorts) (hb : b ∈ T.rows)
    (hkey : ∃ s ∈ sorts, s.field = keyColumn) (hp : T.position b sorts = some p)
    (backwards : Bool) :
    ∃ tie : List (Key String), (∀ k ∈ tie, k.column = keyColumn) ∧ tie.length ≤ 1 ∧
      List.Forall₂ (Measures T b) (p.keyColumns (T.sortColumnCasts sorts) backwards)
        (orderBy sorts backwards ++ tie) := by
  have hcolumns := measures_columns hT hb hp backwards
  unfold CursorPayload.keyColumns
  split
  · exact ⟨[], by simp, by simp, by simpa using hcolumns⟩
  · refine ⟨[⟨keyColumn, backwards⟩], by simp, by simp, ?_⟩
    obtain ⟨id, x, hid, hx, hinput⟩ := text_of_key hT hb hkey
    obtain ⟨s, hs, hfield⟩ := hkey
    obtain ⟨texts, id', -, hid', rfl⟩ := position_eq_some hp
    cases hid.symm.trans hid'
    have hcol := hT.columns s hs
    rw [hfield] at hcol
    rw [← hT.uuid] at hinput
    have htie := hcol.measures hx hinput backwards
    rw [hT.uuid] at htie
    refine List.rel_append hcolumns (.cons ?_ .nil)
    cases backwards <;> exact htie

theorem named_position (hT : T.Sortable sorts) (hsorts : ∀ s ∈ sorts, ColumnText s.field)
    (hp : T.position b sorts = some p) : KeysetNamed p (T.sortColumnCasts sorts) := by
  obtain ⟨texts, id, -, -, rfl⟩ := position_eq_some hp
  refine ⟨List.forall_mem_map.mpr hsorts, ?_⟩
  exact List.forall_mem_map.mpr fun s hs => (hT.columns s hs).cast

section Rows

variable (hT : T.Sortable sorts) (hb : b ∈ T.rows) (hsorts : ∀ s ∈ sorts, ColumnText s.field)
  (hkey : ∃ s ∈ sorts, s.field = keyColumn) (hp : T.position b sorts = some p)
include hT hb hsorts hkey hp

/-- Every comparison of a position's predicate can be evaluated. -/
theorem evaluates_position (backwards : Bool) :
    ∀ q ∈ p.chains (T.sortColumnCasts sorts) backwards, ∀ d ∈ q.1 :: q.2,
      d.Evaluates T.meaning := by
  obtain ⟨tie, -, -, hmeasures⟩ := measures_keyColumns hT hb hkey hp backwards
  refine forall_keysetChains (named_keyColumns (named_position hT hsorts hp) backwards) ?_
  rw [List.nil_append]
  intro c hc
  obtain ⟨k, -, hck⟩ := Backbone.Table.exists_of_mem_left hmeasures hc
  exact hck.evaluates

/-- The keyset predicate of a row's position holds of exactly the rows after it. -/
theorem holds_position (backwards : Bool) (r : ρ) :
    holds T.meaning (buildKeysetPredicate p 1 (T.sortColumnCasts sorts) backwards).2
        (read (buildKeysetPredicate p 1 (T.sortColumnCasts sorts) backwards).1) r ↔
      after T.value (orderBy sorts backwards) b r := by
  obtain ⟨tie, hcol, hlen, hmeasures⟩ := measures_keyColumns hT hb hkey hp backwards
  have hiff := holds_keyset_iff (M := T.meaning) (r := r) (named_position hT hsorts hp) backwards []
  have hlex : (∃ q ∈ p.chains (T.sortColumnCasts sorts) backwards, ∀ d ∈ q.1 :: q.2,
      d.HoldsAlone T.meaning r) ↔ after T.value (orderBy sorts backwards ++ tie) b r := by
    rw [CursorPayload.chains, exists_keysetChains, lexHolds_iff hmeasures]
    simp
  refine hiff.trans ?_
  rw [and_iff_right (evaluates_position hT hb hsorts hkey hp backwards), hlex]
  rcases tie with _ | ⟨k, _ | ⟨_, _⟩⟩
  · rw [List.append_nil]
  · obtain ⟨s, hs, hfield⟩ := hkey
    rw [after_append_of_mem]
    refine ⟨⟨s.field, (s.direction == .desc) != backwards⟩, List.mem_map.mpr ⟨s, hs, rfl⟩, ?_⟩
    exact hfield.trans (hcol k List.mem_cons_self).symm
  · simp at hlen

end Rows

end Predicate

end Backbone.Orm
