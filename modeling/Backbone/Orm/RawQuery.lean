import Backbone.Lib.Fill
import Backbone.Lib.Sql.Insert
import Backbone.Lib.Sql.Seams
import Backbone.Orm.QueryBuilder

/-!
# The raw query builder

`RawQueryBuilder::build` writes its parameters into the SQL text: for each of them in order, the first
place where its placeholder stands as text is replaced by a literal. A template is an SQL text cut at
its placeholders (`Written`); `build` should write into it, at every placeholder, the literal of its
value, and change nothing else.
-/

namespace Backbone.Orm

open Sql

/-- Raw SQL query builder with parameter binding. -/
structure RawQueryBuilder where
  sql : String
  params : List QueryValue
  paramCount : ℕ
deriving DecidableEq, Repr

/-- What a value is replaced by. -/
def QueryValue.replacement : QueryValue → String
  | .text s => "'" ++ String.ofList (quoted s.toList) ++ "'"
  | .integer n => toString n
  | .float f => f
  | .boolean b => toString b
  | .uuid u => "'" ++ u ++ "'"
  | .timestamp ts => "'" ++ ts ++ "'"
  | .null => "NULL"

namespace RawQueryBuilder

def new (sql : String) : RawQueryBuilder where
  sql := sql
  params := []
  paramCount := 1

/-- Add a parameter to the query. -/
def bind (q : RawQueryBuilder) (value : QueryValue) : RawQueryBuilder :=
  { q with params := q.params ++ [value], paramCount := q.paramCount + 1 }

/-- Add multiple parameters. -/
def bindMany (q : RawQueryBuilder) (values : List QueryValue) : RawQueryBuilder :=
  values.foldl bind q

/-- The first place where a placeholder stands replaced by the literal of its value. -/
def replacePlaceholder (sql : String) (i : ℕ) (param : QueryValue) : String :=
  String.ofList (Fill.replaceFirst ("$" ++ toString (i + 1)).toList param.replacement.toList
    sql.toList)

/-- Build the final query with parameter substitution. -/
def build (q : RawQueryBuilder) : String × List QueryValue :=
  (q.params.zipIdx.foldl (fun sql p => replacePlaceholder sql p.2 p.1) q.sql, q.params)

/-- Build query with parameters for SQLx, which keeps the placeholders. -/
def buildParameterized (q : RawQueryBuilder) : String × List QueryValue := (q.sql, q.params)

theorem bindMany_eq (q : RawQueryBuilder) (values : List QueryValue) :
    q.bindMany values = { q with
      params := q.params ++ values
      paramCount := q.paramCount + values.length } := by
  induction values generalizing q with
  | nil => simp [bindMany]
  | cons v values ih =>
    have hstep : q.bindMany (v :: values) = (q.bind v).bindMany values := rfl
    rw [hstep, ih]
    simp [bind, Nat.add_comm, Nat.add_left_comm]

/-! ## Placeholders as marks -/

/-- A placeholder: a dollar sign and a number. -/
def dollar : Fill.Marks Char where
  sigil := '$'
  name := Nat.toDigits 10
  sigil_not_mem k h := by
    have := Nat.isDigit_of_mem_toDigits (by decide) (by decide) h
    simp at this

theorem mark_dollar (k : ℕ) : dollar.mark k = holeText k := rfl

theorem toList_placeholder (k : ℕ) : ("$" ++ toString k).toList = dollar.mark k := by
  simp [mark_dollar, holeText]

/-- A longer number does not begin a shorter one. -/
theorem le_of_name_prefix (j k : ℕ) (h : dollar.name j <+: dollar.name k) : j ≤ k := by
  obtain ⟨rest, hrest⟩ := h
  have hj : Nat.ofDigitChars 10 (dollar.name j) 0 = j := by simp [dollar]
  have hk : Nat.ofDigitChars 10 (dollar.name k) 0 = k := by simp [dollar]
  rw [← hrest, Nat.ofDigitChars_append, hj, Nat.ofDigitChars_eq_ofDigitChars_zero] at hk
  calc j ≤ 10 ^ rest.length * j := Nat.le_mul_of_pos_left j (Nat.pow_pos (by decide))
    _ ≤ 10 ^ rest.length * j + Nat.ofDigitChars 10 rest 0 := Nat.le_add_right ..
    _ = k := hk

/-- The literal of the `k`-th value. -/
def literalOf (params : List QueryValue) (k : ℕ) : List Char :=
  (params.getD (k - 1) .null).replacement.toList

/-- A template with its placeholders up to `k` replaced by their literals. -/
def inlined (params : List QueryValue) (k : ℕ) (t : List (Fill.Piece Char)) : String :=
  String.ofList (Fill.stage dollar (literalOf params) k t)

/-- The SQL text of a template. -/
def sqlText (t : List (Fill.Piece Char)) : String := inlined [] 0 t

/-- The values are taken in order, each for its own number. -/
theorem build_eq_filled (sql : String) (params : List QueryValue) {k : ℕ} (hk : k ≤ params.length) :
    ((new sql).bindMany (params.take k)).build.1 =
      String.ofList (Fill.filled dollar (literalOf params) k sql.toList) := by
  have hparams (vs : List QueryValue) : ((new sql).bindMany vs).build.1 =
      vs.zipIdx.foldl (fun sql p => replacePlaceholder sql p.2 p.1) sql := by
    rw [bindMany_eq]
    simp [build, new]
  rw [hparams]
  induction k with
  | zero => simp [Fill.filled]
  | succ k ih =>
    have hlt : k < params.length := hk
    have htake : params.take (k + 1) = params.take k ++ [params[k]] := by
      rw [List.take_succ_eq_append_getElem hlt]
    rw [htake, List.zipIdx_append, List.foldl_append, ih (Nat.le_of_lt hlt)]
    have hindex : ([params[k]].zipIdx (0 + (params.take k).length)) = [(params[k], k)] := by
      simp [Nat.le_of_lt hlt]
    have hvalue : params.getD k .null = params[k] := by simp [hlt]
    rw [hindex, List.foldl_cons, List.foldl_nil, replacePlaceholder, toList_placeholder,
      String.toList_ofList, Fill.filled, literalOf, Nat.add_sub_cancel, hvalue]

end RawQueryBuilder

end Backbone.Orm
