import Backbone.Lib.Binary64
import Backbone.Lib.Table
import Backbone.Workflow.Expr

/-!
# Seed rows

`bulk_insert` writes a list of JSON objects in chunks of a thousand, one statement a chunk, each
committed by itself. The columns of a statement are the keys of the chunk's first object, and a value
is bound by the first type it is found to have.

The table tells which column a key stands for and what a column holds when a statement leaves it out.
The database refuses a column list that is empty, that names something else than the table's columns
or that names one twice, and may refuse any other statement too, for its constraints or its types. A
statement it accepts inserts a row for each list of values, and a column keeps what is bound to it.

Reference: `backbone-orm/src/seeding.rs`.
-/

namespace Backbone.Orm.Seeding

open Workflow (Value)

/-- A `serde_json::Map`. -/
structure JsonObject where
  fields : List (String × Value)
  nodup : (fields.map Prod.fst).Nodup

def JsonObject.keys (o : JsonObject) : List String := o.fields.map Prod.fst

def JsonObject.value (o : JsonObject) : Value := .obj o.fields

/-- A value bound to a parameter, and a value in a row. -/
inductive Bound where
  | text (s : String)
  | int8 (n : ℤ)
  /-- A double, by its bits, or by the integer it is equal to. -/
  | float8 (x : Workflow.Number)
  | bool (b : Bool)
  | null
deriving DecidableEq, Repr

inductive SeedError where
  | message (text : String)
  /-- The database refuses a statement. -/
  | database
deriving DecidableEq, Repr

/-! ## The statement of a chunk -/

/-- `Value::as_i64` -/
def asI64 : Value → Option ℤ
  | .num (.int n) => if n < 2 ^ 63 then some n else none
  | _ => none

/-- `Value::as_f64` -/
def asF64 : Value → Option Workflow.Number
  | .num (.int n) => some (.int (Binary64.ofInt n))
  | .num (.float bits) => some (.float bits)
  | _ => none

/-- `Value::as_bool` -/
def asBool : Value → Option Bool
  | .bool b => some b
  | _ => none

section Statement

-- `serde_json`'s text of a float.
variable (floatText : UInt64 → String)

def bindValue (value : Value) : Bound :=
  match value.asStr with
  | some strVal => .text strVal
  | none =>
    match asI64 value with
    | some intVal => .int8 intVal
    | none =>
      match asF64 value with
      | some floatVal => .float8 floatVal
      | none =>
        match asBool value with
        | some boolVal => .bool boolVal
        | none => .text (value.text floatText)

def bindField (item : Value) (field : String) : Bound :=
  match item.get? field with
  | some value => bindValue floatText value
  | none => .null

/-- `INSERT INTO table (fields) VALUES (placeholders), ...` with its parameters. -/
structure Statement where
  fields : List String
  placeholders : List (List ℕ)
  params : List Bound

def chunkStatement (chunk : List Value) : Except SeedError Statement :=
  match chunk.head? with
  | some (.obj sample) =>
    let fields := sample.map Prod.fst
    .ok {
      fields := fields
      placeholders := (List.range chunk.length).map fun i =>
        (List.range fields.length).map fun j => i * fields.length + j + 1
      params := chunk.flatMap fun item => fields.map (bindField floatText item) }
  | _ => .error (.message "Data must be objects")

/-! ## The table -/

structure Table where
  /-- The column that a key names in a column list. -/
  column : String → Option String
  default : String → Bound

abbrev Row := String → Bound

/-- The texts are names of columns, each of another one. -/
def Table.WellNamed (T : Table) (fields : List String) : Prop :=
  fields ≠ [] ∧ (∀ field ∈ fields, (T.column field).isSome = true) ∧ (fields.map T.column).Nodup

instance (T : Table) (fields : List String) : Decidable (T.WellNamed fields) :=
  inferInstanceAs (Decidable (_ ∧ _))

/-- The row with these values in the columns of the statement. -/
def Table.row (T : Table) (fields : List String) (values : List Bound) : Row := fun column =>
  match (fields.zip values).find? fun p => T.column p.1 = some column with
  | some p => p.2
  | none => T.default column

/-- The rows that a statement inserts, if it is accepted. -/
def Table.execute (T : Table) (accepted : Bool) (s : Statement) : Except SeedError (List Row) :=
  if accepted = true ∧ T.WellNamed s.fields then
    .ok (s.placeholders.map fun numbers =>
      T.row s.fields (numbers.map fun k => (s.params[k - 1]?).getD .null))
  else .error .database

/-! ## The call -/

/-- `slice::chunks` -/
def chunks {α : Type*} (size : ℕ) : List α → List (List α)
  | [] => []
  | x :: l => (x :: l.take (size - 1)) :: chunks size (l.drop (size - 1))
termination_by l => l.length
decreasing_by simp only [List.length_drop, List.length_cons]; omega

variable (T : Table) (accepts : ℕ → Bool)

/-- The loop over the chunks: the result, and the rows that are inserted. The database accepts the
`k`-th statement if `accepts k`. -/
def insertChunks : ℕ → List (List Value) → ℕ → List Row → Except SeedError ℕ × List Row
  | _, [], totalRows, rows => (.ok totalRows, rows)
  | k, chunk :: rest, totalRows, rows =>
    match (chunkStatement floatText chunk).bind (T.execute (accepts k)) with
    | .ok inserted => insertChunks (k + 1) rest (totalRows + inserted.length) (rows ++ inserted)
    | .error e => (.error e, rows)

def bulkInsert (data : List Value) : Except SeedError ℕ × List Row :=
  if data.isEmpty then (.ok 0, []) else insertChunks floatText T accepts 0 (chunks 1000 data) 0 []

/-! ## What is asked of a call -/

/-- What the row holds carries the JSON value. -/
def Carries : Value → Bound → Prop
  | .null, b => b = .null
  | .bool x, b => b = .bool x
  | .num (.int n), b => b = .int8 n ∨ b = .float8 (.int n)
  | .num x, b => b = .float8 x
  | .str s, b => b = .text s
  | v, b => b = .text (v.text floatText)

/-- The row has each value of the object in its key's column, and `NULL` or the default elsewhere. -/
def Table.RowCarries (o : JsonObject) (row : Row) : Prop :=
  (∀ kv ∈ o.fields, ∃ column, T.column kv.1 = some column ∧ Carries floatText kv.2 (row column)) ∧
    ∀ column, (∀ key ∈ o.keys, T.column key ≠ some column) →
      row column = .null ∨ row column = T.default column

/-- All rows are there and whole, or none is. -/
def Table.Whole (data : List JsonObject) : Except SeedError ℕ × List Row → Prop
  | (.ok n, rows) => n = data.length ∧ List.Forall₂ (T.RowCarries floatText) data rows
  | (.error _, rows) => rows = []

/-! ## When a call does it -/

/-- Values that are bound as what they are: `null` is bound as a text, and an integer past `i64` as
the nearest double. -/
def Bindable : Value → Prop
  | .null => False
  | .num (.int n) => n < 2 ^ 63 ∨ Binary64.ofInt n = n
  | _ => True

/-- What a row of a statement with these columns holds for the object. -/
def Table.cell (fields : List String) (o : JsonObject) : Row := fun column =>
  match fields.find? fun field => T.column field = some column with
  | some field => bindField floatText o.value field
  | none => T.default column

/-- The object has no other keys than the statement, and only values that are bound as what they
are; or the column of a key that the statement leaves out holds the value anyway. -/
def Table.Fits (fields : List String) (o : JsonObject) : Prop :=
  ∀ kv ∈ o.fields, if kv.1 ∈ fields then Bindable kv.2
    else ∃ column, T.column kv.1 = some column ∧
      Carries floatText kv.2 (T.cell floatText fields o column)

/-- The keys of the chunk's first object. -/
def columnsOf (chunk : List JsonObject) : List String := (chunk.head?.map JsonObject.keys).getD []

/-- The statement of the `k`-th chunk is accepted. -/
def Table.Accepted (p : List JsonObject × ℕ) : Prop :=
  accepts p.2 = true ∧ T.WellNamed (columnsOf p.1)

end Statement

section Proofs

variable {floatText : UInt64 → String} {T : Table} {accepts : ℕ → Bool} {o : JsonObject}
variable {fields : List String} {α : Type*} {cs : List (List JsonObject)} {β : Type*}
  {key column : String}

theorem carries_bindValue_iff (floatText : UInt64 → String) (v : Value) :
    Carries floatText v (bindValue floatText v) ↔ Bindable v := by
  cases v with
  | null => simp [Carries, bindValue, Value.asStr, asI64, asF64, asBool, Bindable]
  | bool b => simp [Carries, bindValue, Value.asStr, asI64, asF64, asBool, Bindable]
  | num n =>
    cases n with
    | int n =>
      by_cases hn : n < 2 ^ 63
      · have hint : asI64 (.num (.int n)) = some n := if_pos hn
        have hbind : bindValue floatText (.num (.int n)) = .int8 n := by
          simp [bindValue, Value.asStr, hint]
        rw [hbind]
        exact iff_of_true (.inl rfl) (.inl hn)
      · have hint : asI64 (.num (.int n)) = none := if_neg hn
        have hbind : bindValue floatText (.num (.int n)) = .float8 (.int (Binary64.ofInt n)) := by
          simp [bindValue, Value.asStr, hint, asF64]
        rw [hbind, Bindable, or_iff_right hn]
        simp [Carries]
    | float bits => simp [Carries, bindValue, Value.asStr, asI64, asF64, Bindable]
  | str s => simp [Carries, bindValue, Value.asStr, Bindable]
  | arr items => simp [Carries, bindValue, Value.asStr, asI64, asF64, asBool, Bindable]
  | obj fields => simp [Carries, bindValue, Value.asStr, asI64, asF64, asBool, Bindable]

theorem bindField_of_mem {kv : String × Value} (h : kv ∈ o.fields) :
    bindField floatText o.value kv.1 = bindValue floatText kv.2 := by
  have hfind : o.fields.find? (fun f => f.1 == kv.1) = some kv :=
    Table.find?_eq_some_of_mem o.nodup h
  simp [bindField, JsonObject.value, Value.get?, hfind]

theorem bindField_of_notMem (h : key ∉ o.keys) : bindField floatText o.value key = .null := by
  have hfind : o.fields.find? (fun f => f.1 == key) = none := by
    rw [List.find?_eq_none]
    intro f hf hkey
    exact h (beq_iff_eq.mp hkey ▸ List.mem_map_of_mem hf)
  simp [bindField, JsonObject.value, Value.get?, hfind]

/-- A field of the statement is found by its column. -/
theorem cell_of_mem (hnamed : T.WellNamed fields) (hmem : key ∈ fields)
    (hcolumn : T.column key = some column) :
    T.cell floatText fields o column = bindField floatText o.value key := by
  have hfind : fields.find? (fun field => T.column field = some column) = some key := by
    rw [← hcolumn]
    exact Table.find?_eq_some_of_mem hnamed.2.2 hmem
  rw [Table.cell, hfind]

/-- A cell is a field of the object, or null or the default where it has no key for the column. -/
theorem cell_elsewhere (h : ∀ key ∈ o.keys, T.column key ≠ some column) :
    T.cell floatText fields o column = .null ∨
      T.cell floatText fields o column = T.default column := by
  unfold Table.cell
  split
  · rename_i field hfind
    have hcolumn := List.find?_some hfind
    rw [decide_eq_true_iff] at hcolumn
    exact .inl (bindField_of_notMem fun hmem => h field hmem hcolumn)
  · exact .inr rfl

theorem rowCarries_iff (hnamed : T.WellNamed fields) :
    T.RowCarries floatText o (T.cell floatText fields o) ↔ T.Fits floatText fields o := by
  rw [Table.RowCarries, and_iff_left fun _ => cell_elsewhere]
  refine forall₂_congr fun kv hkv => ?_
  split
  · rename_i hmem
    obtain ⟨column, hcolumn⟩ := Option.isSome_iff_exists.mp (hnamed.2.1 _ hmem)
    rw [← carries_bindValue_iff floatText, ← bindField_of_mem hkv]
    constructor
    · rintro ⟨other, hother, hcarries⟩
      rwa [cell_of_mem hnamed hmem hother] at hcarries
    · intro hcarries
      exact ⟨column, hcolumn, cell_of_mem (o := o) hnamed hmem hcolumn ▸ hcarries⟩
  · rfl

/-! ## The rows of a statement -/

/-- The parameters of a list of rows, by their numbers, are the rows. -/
theorem params_by_number (g : α → List β) {n : ℕ} (hn : ∀ x, (g x).length = n) (d : β)
    (l : List α) :
    ((List.range l.length).map fun i => (List.range n).map fun j =>
      (l.flatMap g)[i * n + j + 1 - 1]?.getD d) = l.map g := by
  induction l with
  | nil => rfl
  | cons x l ih =>
    rw [List.length_cons, List.range_succ_eq_map, List.map_cons, List.map_map, List.map_cons, ← ih]
    congr 1
    · refine List.ext_getElem? fun j => ?_
      by_cases hj : j < n
      · have hx : j < (g x).length := (hn x).symm ▸ hj
        simp [hj, List.getElem?_append_left hx, List.getElem?_eq_getElem hx]
      · have hx : (g x).length ≤ j := (hn x).symm ▸ not_lt.mp hj
        simp [hj, List.getElem?_eq_none hx]
    · refine List.map_congr_left fun i _ => List.map_congr_left fun j _ => ?_
      have hskip : (i + 1) * n + j + 1 - 1 = (g x).length + (i * n + j + 1 - 1) := by
        rw [hn x, Nat.add_mul]
        omega
      rw [Nat.succ_eq_add_one, hskip, List.flatMap_cons,
        List.getElem?_append_right (Nat.le_add_right _ _), Nat.add_sub_cancel_left]

theorem row_eq_cell (fields : List String) (o : JsonObject) :
    T.row fields (fields.map (bindField floatText o.value)) = T.cell floatText fields o := by
  funext column
  have hzip : fields.zip (fields.map (bindField floatText o.value)) =
      fields.map fun field => (field, bindField floatText o.value field) :=
    List.map_prod_left_eq_zip.symm
  rw [Table.row, Table.cell, hzip, List.find?_map]
  have hcomp : ((fun p : String × Bound => decide (T.column p.1 = some column)) ∘
      fun field => (field, bindField floatText o.value field)) =
      fun field => decide (T.column field = some column) := rfl
  rw [hcomp]
  cases fields.find? fun field => decide (T.column field = some column) with
  | none => rfl
  | some field => rfl

/-- An accepted statement inserts a row for each object of its chunk. -/
theorem execute_chunk {chunk : List JsonObject} (hne : chunk ≠ []) (accepted : Bool) :
    (chunkStatement floatText (chunk.map JsonObject.value)).bind (T.execute accepted) =
      if accepted = true ∧ T.WellNamed (columnsOf chunk) then
        .ok (chunk.map (T.cell floatText (columnsOf chunk)))
      else .error .database := by
  obtain ⟨first, rest, rfl⟩ := List.exists_cons_of_ne_nil hne
  have hchunk : chunkStatement floatText ((first :: rest).map JsonObject.value) = .ok {
      fields := first.keys
      placeholders := (List.range ((first :: rest).map JsonObject.value).length).map fun i =>
        (List.range first.keys.length).map fun j => i * first.keys.length + j + 1
      params := ((first :: rest).map JsonObject.value).flatMap fun item =>
        first.keys.map (bindField floatText item) } := rfl
  have hcolumns : columnsOf (first :: rest) = first.keys := rfl
  rw [hchunk, hcolumns]
  show T.execute accepted _ = _
  unfold Table.execute
  split
  · have hparams := params_by_number (fun item => first.keys.map (bindField floatText item))
      (fun _ => List.length_map _) .null ((first :: rest).map JsonObject.value)
    have hrows := congrArg (List.map (T.row first.keys)) hparams
    simp only [List.map_map, Function.comp_def, row_eq_cell] at hrows ⊢
    exact congrArg Except.ok hrows
  · rfl

/-! ## The loop -/

theorem flatten_chunks (size : ℕ) (l : List α) : (chunks size l).flatten = l := by
  induction l using chunks.induct size with
  | case1 => rw [chunks, List.flatten_nil]
  | case2 x l ih => rw [chunks, List.flatten_cons, ih, List.cons_append, List.take_append_drop]

theorem ne_nil_of_mem_chunks {size : ℕ} {l c : List α} (h : c ∈ chunks size l) : c ≠ [] := by
  induction l using chunks.induct size with
  | case1 =>
    rw [chunks] at h
    cases h
  | case2 x l ih =>
    rw [chunks, List.mem_cons] at h
    rcases h with rfl | h
    · exact List.cons_ne_nil _ _
    · exact ih h

theorem chunks_map (f : α → β) (size : ℕ) (l : List α) :
    chunks size (l.map f) = (chunks size l).map (List.map f) := by
  induction l using chunks.induct size with
  | case1 => rw [List.map_nil, chunks, chunks, List.map_nil]
  | case2 x l ih =>
    rw [List.map_cons, chunks, chunks, ← List.map_take, ← List.map_drop, ih, List.map_cons,
      List.map_cons]

theorem insertChunks_of_accepted (hne : ∀ c ∈ cs, c ≠ []) {k : ℕ}
    (h : ∀ p ∈ cs.zipIdx k, T.Accepted accepts p) (n : ℕ) (rows : List Row) :
    insertChunks floatText T accepts k (cs.map (List.map JsonObject.value)) n rows =
      (.ok (n + cs.flatten.length),
        rows ++ cs.flatMap fun c => c.map (T.cell floatText (columnsOf c))) := by
  induction cs generalizing k n rows with
  | nil => simp [insertChunks]
  | cons c cs ih =>
    rw [List.zipIdx_cons, List.forall_mem_cons] at h
    rw [List.forall_mem_cons] at hne
    have hfirst : accepts k = true ∧ T.WellNamed (columnsOf c) := h.1
    rw [List.map_cons, insertChunks, execute_chunk hne.1, if_pos hfirst]
    dsimp only
    rw [ih hne.2 h.2]
    simp [Nat.add_assoc]

/-- A call that ends in an error leaves the rows of the chunks before it. -/
theorem insertChunks_of_not_accepted (hne : ∀ c ∈ cs, c ≠ []) {k : ℕ}
    (h : ¬ ∀ p ∈ cs.zipIdx k, T.Accepted accepts p) (n : ℕ) (rows : List Row) :
    ∃ e inserted, insertChunks floatText T accepts k (cs.map (List.map JsonObject.value)) n rows =
        (.error e, rows ++ inserted) ∧
      (inserted = [] ↔ ∀ c ∈ cs.head?, ¬ T.Accepted accepts (c, k)) := by
  induction cs generalizing k n rows with
  | nil => simp at h
  | cons c cs ih =>
    rw [List.zipIdx_cons, List.forall_mem_cons] at h
    rw [List.forall_mem_cons] at hne
    rw [List.map_cons, insertChunks, execute_chunk hne.1]
    by_cases hc : accepts k = true ∧ T.WellNamed (columnsOf c)
    · obtain ⟨e, inserted, heq, -⟩ := ih hne.2 (fun hall => h ⟨hc, hall⟩)
        (n + (c.map (T.cell floatText (columnsOf c))).length)
        (rows ++ c.map (T.cell floatText (columnsOf c)))
      refine ⟨e, c.map (T.cell floatText (columnsOf c)) ++ inserted, ?_, ?_⟩
      · rw [if_pos hc]
        dsimp only
        rw [heq, List.append_assoc]
      · refine iff_of_false (by simp [hne.1]) fun hall => hall c rfl hc
    · refine ⟨.database, [], ?_, iff_of_true rfl ?_⟩
      · rw [if_neg hc, List.append_nil]
      · rintro _ ⟨⟩
        exact hc

theorem bulkInsert_eq (data : List JsonObject) :
    bulkInsert floatText T accepts (data.map JsonObject.value) =
      insertChunks floatText T accepts 0
        ((chunks 1000 data).map (List.map JsonObject.value)) 0 [] := by
  rw [bulkInsert, ← chunks_map]
  cases data with
  | nil =>
    rw [List.map_nil, chunks]
    rfl
  | cons o data => rfl

theorem forall₂_append_iff {R : α → β → Prop} {a a' : List α} {b b' : List β}
    (h : a.length = b.length) :
    List.Forall₂ R (a ++ a') (b ++ b') ↔ List.Forall₂ R a b ∧ List.Forall₂ R a' b' := by
  induction a generalizing b with
  | nil =>
    obtain rfl := List.length_eq_zero_iff.mp h.symm
    simp
  | cons x a ih =>
    cases b with
    | nil => cases h
    | cons y b =>
      rw [List.cons_append, List.cons_append, List.forall₂_cons, List.forall₂_cons,
        ih (Nat.succ.inj h), and_assoc]

theorem forall₂_rows_iff (h : ∀ c ∈ cs, T.WellNamed (columnsOf c)) :
    List.Forall₂ (T.RowCarries floatText) cs.flatten
        (cs.flatMap fun c => c.map (T.cell floatText (columnsOf c))) ↔
      ∀ c ∈ cs, ∀ o ∈ c, T.Fits floatText (columnsOf c) o := by
  induction cs with
  | nil => simp
  | cons c cs ih =>
    rw [List.forall_mem_cons] at h ⊢
    rw [List.flatten_cons, List.flatMap_cons, forall₂_append_iff (List.length_map _).symm, ih h.2,
      List.forall₂_map_right_iff, List.forall₂_same]
    simp only [rowCarries_iff h.1]

/-- A call inserts all rows whole, or none, exactly if with the first statement all are accepted, and
if they are, every object fits the statement of its chunk. -/
theorem whole_iff (floatText : UInt64 → String) (T : Table) (accepts : ℕ → Bool)
    (data : List JsonObject) :
    T.Whole floatText data (bulkInsert floatText T accepts (data.map JsonObject.value)) ↔
      ((∀ c ∈ (chunks 1000 data).head?, T.Accepted accepts (c, 0)) →
        (∀ p ∈ (chunks 1000 data).zipIdx, T.Accepted accepts p) ∧
          ∀ c ∈ chunks 1000 data, ∀ o ∈ c, T.Fits floatText (columnsOf c) o) := by
  have hne : ∀ c ∈ chunks 1000 data, c ≠ [] := fun c hc => ne_nil_of_mem_chunks hc
  have hflat := flatten_chunks 1000 data
  rw [bulkInsert_eq]
  generalize chunks 1000 data = cs at hne hflat
  subst hflat
  by_cases hall : ∀ p ∈ cs.zipIdx, T.Accepted accepts p
  · have hnamed : ∀ c ∈ cs, T.WellNamed (columnsOf c) := by
      intro c hc
      rw [← List.zipIdx_map_fst 0 cs] at hc
      obtain ⟨p, hp, rfl⟩ := List.mem_map.mp hc
      exact (hall p hp).2
    have hfirst : ∀ c ∈ cs.head?, T.Accepted accepts (c, 0) := by
      cases cs with
      | nil => rintro _ ⟨⟩
      | cons c cs =>
        rintro _ ⟨⟩
        exact hall (c, 0) List.mem_cons_self
    rw [insertChunks_of_accepted hne hall, List.nil_append, Nat.zero_add]
    show _ = _ ∧ List.Forall₂ _ _ _ ↔ _
    rw [and_iff_right rfl, forall₂_rows_iff hnamed]
    exact ⟨fun h _ => ⟨hall, h⟩, fun h => (h hfirst).2⟩
  · obtain ⟨e, inserted, heq, hinserted⟩ := insertChunks_of_not_accepted hne hall 0 []
    rw [heq, List.nil_append]
    show inserted = [] ↔ _
    rw [hinserted]
    cases cs with
    | nil => simp at hall
    | cons c cs =>
      constructor
      · exact fun hnot hfirst => absurd (hfirst c rfl) (hnot c rfl)
      · rintro h _ ⟨⟩ hc
        refine hall (h ?_).1
        rintro _ ⟨⟩
        exact hc

/-! ### A null -/

/-- One object with a `null`, in a table that takes whatever it is given. -/
theorem not_whole : ¬ ∀ (floatText : UInt64 → String) (T : Table) (accepts : ℕ → Bool)
    (data : List JsonObject),
      T.Whole floatText data (bulkInsert floatText T accepts (data.map JsonObject.value)) := by
  intro h
  let T : Table := ⟨some, fun _ => .null⟩
  let note : JsonObject := ⟨[("note", .null)], List.nodup_singleton _⟩
  have hwhole := h (fun _ => "") T (fun _ => true) [note]
  have hchunks : chunks 1000 [note] = [[note]] := by simp [chunks]
  have hnamed : T.WellNamed (columnsOf [note]) := by decide
  have haccepted : ∀ p ∈ [[note]].zipIdx 0, T.Accepted (fun _ => true) p := by
    rintro p hp
    obtain rfl := List.mem_singleton.mp hp
    exact ⟨rfl, hnamed⟩
  rw [bulkInsert_eq, hchunks, insertChunks_of_accepted (by simp) haccepted] at hwhole
  have hrow : T.RowCarries (fun _ => "") note (T.cell (fun _ => "") (columnsOf [note]) note) :=
    (List.forall₂_cons.mp hwhole.2).1
  have hfits := (rowCarries_iff hnamed).mp hrow ("note", .null) List.mem_cons_self
  exact hfits

end Proofs

end Backbone.Orm.Seeding
