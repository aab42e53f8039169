import Backbone.Lib.Sql.Conjoin
import Backbone.Orm.ConditionSql

/-!
# The query builder

`QueryBuilder` assembles one SELECT. Every `where` call appends a text and one value to the builder's
conditions and moves the number of the next placeholder on; the texts are joined with AND as they
are. The fields the other calls set (`select`, `join`, `order_by`, `limit`, `offset`) stand in the
text before and after the conditions.
-/

namespace Backbone.Orm

open Sql Text

/-- Query parameter values. A float, a UUID and a time are the texts that display them. -/
inductive QueryValue where
  | text (s : String)
  | integer (n : ℤ)
  | float (f : String)
  | boolean (b : Bool)
  | uuid (u : String)
  | timestamp (ts : String)
  | null
deriving DecidableEq, Repr

inductive JoinType where
  | inner
  | left
  | right
  | full
  | cross
deriving DecidableEq, Repr

structure JoinClause where
  joinType : JoinType
  table : String
  onCondition : String
  tableAlias : Option String
deriving DecidableEq, Repr

/-- SQL query builder with parameterized queries and JOIN support. -/
structure QueryBuilder where
  table : String
  fields : List String
  joins : List JoinClause
  conditions : List (String × QueryValue)
  orderBy : List String
  limit : Option ℕ
  offset : Option ℕ
  nextParamId : ℕ
deriving DecidableEq, Repr

namespace QueryBuilder

variable {calls : List Call} {n : ℕ} {p : ℕ × Call}

def new (table : String) : QueryBuilder where
  table := table
  fields := ["*"]
  joins := []
  conditions := []
  orderBy := []
  limit := none
  offset := none
  nextParamId := 1

/-! ## Conditions -/

/-- The text that compares a field with the placeholder numbered `n`. -/
def compareText (op field : String) (n : ℕ) : String := field ++ " " ++ op ++ " $" ++ toString n

/-- A condition that compares a field with one value. -/
def whereOp (op : String) (b : QueryBuilder) (field : String) (value : QueryValue) :
    QueryBuilder :=
  { b with
    conditions := b.conditions ++ [(compareText op field b.nextParamId, value)]
    nextParamId := b.nextParamId + 1 }

/-- Add WHERE field = ? condition. -/
def whereEq : QueryBuilder → String → QueryValue → QueryBuilder := whereOp "="

/-- Add WHERE field != ? condition. -/
def whereNe : QueryBuilder → String → QueryValue → QueryBuilder := whereOp "!="

/-- Add WHERE field > ? condition. -/
def whereGt : QueryBuilder → String → QueryValue → QueryBuilder := whereOp ">"

/-- Add WHERE field < ? condition. -/
def whereLt : QueryBuilder → String → QueryValue → QueryBuilder := whereOp "<"

/-- Add WHERE field LIKE ? condition. -/
def whereLike : QueryBuilder → String → QueryValue → QueryBuilder := whereOp "LIKE"

/-- The text that looks for a field among `len` placeholders from the number `n` on. -/
def inText (field : String) (len n : ℕ) : String :=
  field ++ " IN (" ++ join ", " ((List.range len).map fun i => "$" ++ toString (n + i)) ++ ")"

/-- Add WHERE field IN (?) condition. Of the values only the first is kept; the numbering moves on by
all of them. -/
def whereIn (b : QueryBuilder) (field : String) (values : List QueryValue) : QueryBuilder :=
  match values with
  | [] => b
  | v :: _ =>
    { b with
      conditions := b.conditions ++ [(inText field values.length b.nextParamId, v)]
      nextParamId := b.nextParamId + values.length }

/-- Add raw WHERE condition (for complex conditions). -/
def whereRaw (b : QueryBuilder) (condition : String) (param : QueryValue) : QueryBuilder :=
  { b with
    conditions := b.conditions ++ [(condition, param)]
    nextParamId := b.nextParamId + 1 }

/-! ## The query -/

def JoinType.sql : JoinType → String
  | .inner => "INNER JOIN"
  | .left => "LEFT JOIN"
  | .right => "RIGHT JOIN"
  | .full => "FULL JOIN"
  | .cross => "CROSS JOIN"

def JoinClause.sql (j : JoinClause) : String :=
  " " ++ JoinType.sql j.joinType ++ " " ++ j.table ++ (j.tableAlias.elim "" fun a => " AS " ++ a) ++
    " ON " ++ j.onCondition

/-- The text before the conditions. -/
def headSql (b : QueryBuilder) : String :=
  "SELECT " ++ join ", " b.fields ++ " FROM " ++ b.table ++ join "" (b.joins.map JoinClause.sql)

/-- The conditions, as they are, with AND between them. -/
def whereSql (b : QueryBuilder) : String :=
  if b.conditions.isEmpty then "" else " WHERE " ++ join " AND " (b.conditions.map Prod.fst)

/-- The text after the conditions. -/
def tailSql (b : QueryBuilder) : String :=
  (if b.orderBy.isEmpty then "" else " ORDER BY " ++ join ", " b.orderBy) ++
    (b.limit.elim "" fun n => " LIMIT " ++ toString n) ++
    (b.offset.elim "" fun n => " OFFSET " ++ toString n)

/-- Build the SQL query string. -/
def buildSql (b : QueryBuilder) : String := b.headSql ++ b.whereSql ++ b.tailSql

/-- Build query with parameters for execution. -/
def buildQuery (b : QueryBuilder) : String × List QueryValue :=
  (b.buildSql, b.conditions.map Prod.snd)

/-! ## Sequences of calls -/

/-- The calls that add a condition. -/
inductive Call where
  | whereEq (field : String) (value : QueryValue)
  | whereNe (field : String) (value : QueryValue)
  | whereGt (field : String) (value : QueryValue)
  | whereLt (field : String) (value : QueryValue)
  | whereLike (field : String) (value : QueryValue)
  | whereIn (field : String) (values : List QueryValue)
  | whereRaw (condition : String) (param : QueryValue)
deriving DecidableEq, Repr

namespace Call

def apply (b : QueryBuilder) : Call → QueryBuilder
  | .whereEq field value => b.whereEq field value
  | .whereNe field value => b.whereNe field value
  | .whereGt field value => b.whereGt field value
  | .whereLt field value => b.whereLt field value
  | .whereLike field value => b.whereLike field value
  | .whereIn field values => b.whereIn field values
  | .whereRaw condition param => b.whereRaw condition param

/-- The values a call is given. -/
def values : Call → List QueryValue
  | .whereIn _ values => values
  | .whereEq _ v | .whereNe _ v | .whereGt _ v | .whereLt _ v | .whereLike _ v | .whereRaw _ v => [v]

/-- The condition a call means, with its placeholders from the number `n` on. -/
def text (n : ℕ) : Call → String
  | .whereEq field _ => compareText "=" field n
  | .whereNe field _ => compareText "!=" field n
  | .whereGt field _ => compareText ">" field n
  | .whereLt field _ => compareText "<" field n
  | .whereLike field _ => compareText "LIKE" field n
  | .whereIn field values => inText field values.length n
  | .whereRaw condition _ => condition

/-- What a call adds to the conditions: its text with the first of its values, if it has one. -/
def added (n : ℕ) (c : Call) : List (String × QueryValue) :=
  c.values.head?.toList.map fun v => (c.text n, v)

/-- All a call does to a builder. -/
theorem apply_eq (b : QueryBuilder) (c : Call) :
    c.apply b = { b with
      conditions := b.conditions ++ c.added b.nextParamId
      nextParamId := b.nextParamId + c.values.length } := by
  cases c with
  | whereIn field values =>
    cases values with
    | nil => simp [apply, QueryBuilder.whereIn, added, Call.values]
    | cons v vs => rfl
  | _ => rfl

end Call

/-- A sequence of calls. -/
def run (b : QueryBuilder) (calls : List Call) : QueryBuilder := calls.foldl Call.apply b

/-- Each call with the number of its first placeholder. -/
def numbered (n : ℕ) : List Call → List (ℕ × Call)
  | [] => []
  | c :: calls => (n, c) :: numbered (n + c.values.length) calls

/-- The values the calls are given, in order. -/
def given (calls : List Call) : List QueryValue := calls.flatMap Call.values

@[simp] theorem given_cons (c : Call) (calls : List Call) :
    given (c :: calls) = c.values ++ given calls :=
  List.flatMap_cons

/-- All a sequence of calls does to a builder. -/
theorem run_eq (b : QueryBuilder) (calls : List Call) :
    run b calls = { b with
      conditions := b.conditions ++ (numbered b.nextParamId calls).flatMap fun p => p.2.added p.1
      nextParamId := b.nextParamId + (given calls).length } := by
  induction calls generalizing b with
  | nil => simp [run, numbered, given]
  | cons c calls ih =>
    have hstep : run b (c :: calls) = run (c.apply b) calls := rfl
    rw [hstep, ih, c.apply_eq]
    simp [numbered, Nat.add_assoc]

/-! ## The placeholders of a sequence -/

theorem le_of_mem_numbered (h : p ∈ numbered n calls) : n ≤ p.1 := by
  induction calls generalizing n with
  | nil => cases h
  | cons c calls ih =>
    rcases List.mem_cons.mp h with rfl | h
    · exact Nat.le_refl n
    · exact Nat.le_trans (Nat.le_add_right ..) (ih h)

/-- The calls' placeholders are numbered in a row. -/
theorem exists_numbered {m : ℕ} :
    (∃ p ∈ numbered n calls, p.1 ≤ m ∧ m < p.1 + p.2.values.length) ↔
      n ≤ m ∧ m < n + (given calls).length := by
  induction calls generalizing n with
  | nil =>
    simp only [numbered, List.not_mem_nil, false_and, exists_false, given, List.flatMap_nil,
      List.length_nil, false_iff]
    omega
  | cons c calls ih =>
    rw [numbered, List.exists_mem_cons_iff, ih, given_cons, List.length_append]
    dsimp only
    omega

/-- A call's values stand among all the values where its numbers say. -/
theorem getElem?_given (h : p ∈ numbered n calls) {i : ℕ}
    (hi : i < p.2.values.length) : (given calls)[p.1 - n + i]? = p.2.values[i]? := by
  induction calls generalizing n with
  | nil => cases h
  | cons c calls ih =>
    rw [given_cons]
    rcases List.mem_cons.mp h with rfl | h
    · rw [Nat.sub_self, Nat.zero_add, List.getElem?_append_left hi]
    · have hle := le_of_mem_numbered h
      rw [List.getElem?_append_right (by omega), ← ih h]
      congr 1
      omega

/-! ## The texts of the conditions -/

theorem map_fst_added (n : ℕ) (calls : List Call) :
    ((numbered n calls).flatMap fun p => p.2.added p.1).map Prod.fst =
      ((numbered n calls).filter fun p => !p.2.values.isEmpty).map fun p => p.2.text p.1 := by
  induction calls generalizing n with
  | nil => rfl
  | cons c calls ih =>
    rw [numbered, List.flatMap_cons, List.map_append, ih, List.filter_cons]
    cases hv : c.values <;> simp [Call.added, hv]

/-- Calls that were given at most one value each keep all of them. -/
theorem map_snd_added (h : ∀ c ∈ calls, c.values.length ≤ 1) (n : ℕ) :
    ((numbered n calls).flatMap fun p => p.2.added p.1).map Prod.snd = given calls := by
  induction calls generalizing n with
  | nil => rfl
  | cons c calls ih =>
    obtain ⟨hc, hcalls⟩ := List.forall_mem_cons.mp h
    rw [numbered, List.flatMap_cons, List.map_append, ih hcalls, given_cons]
    congr 1
    match hv : c.values, hc with
    | [], _ => simp [Call.added, hv]
    | [v], _ => simp [Call.added, hv]

end QueryBuilder

end Backbone.Orm
