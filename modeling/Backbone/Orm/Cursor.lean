import Backbone.Orm.Filter

/-!
# Keyset cursors

Reference: `backbone-orm/src/filter/cursor.rs`, `backbone-orm/src/repository.rs`.

A cursor carries the boundary row's value for each sort column and its id. `buildKeysetPredicate`
turns it into the expanded lexicographic comparison, as text, and `andKeysetPredicate` puts that
behind the WHERE clause of the filter.
-/

namespace Backbone.Orm

open Text

/-- What a cursor holds: the sort it was cut in, and the boundary row's position in it. -/
structure CursorPayload where
  v : ℕ
  f : List String
  /-- The direction of each sort field: 0 ascending, 1 descending. -/
  d : List ℕ
  k : List String
  id : String
deriving DecidableEq, Repr

/-- One column of the keyset predicate, with the value it is compared with. -/
structure KeyColumn where
  name : String
  strict : FilterOperator
  value : String
  cast : Option String
deriving DecidableEq, Repr

/-- The comparison that moves on in the walk's direction. -/
def strictOperator (ascending backwards : Bool) : FilterOperator :=
  if ascending != backwards then .greaterThan else .lessThan

/-- The sort columns of a payload. The arrays of a decoded payload have one length. -/
def CursorPayload.columns (p : CursorPayload) (casts : List (Option String)) (backwards : Bool) :
    List KeyColumn :=
  p.f.zipIdx.map fun x => {
    name := x.1
    strict := strictOperator (p.d.getD x.2 0 == 0) backwards
    value := p.k.getD x.2 ""
    cast := (casts[x.2]?).join }

/-- The tiebreaker: the boundary row's id. -/
def CursorPayload.tiebreaker (p : CursorPayload) (backwards : Bool) : KeyColumn where
  name := "id"
  strict := strictOperator true backwards
  value := p.id
  cast := some "uuid"

/-- `column op $n::cast`. -/
def KeyColumn.compare (c : KeyColumn) (op : FilterOperator) (paramIdx : ℕ) : String :=
  c.name ++ " " ++ op.asSql ++ " " ++ FilterCondition.placeholder paramIdx ++
    FilterCondition.cast c.cast

/-- One term: everything before the column is equal, the column compares. -/
def keysetTerm (before : List KeyColumn) (c : KeyColumn) (paramIdx : ℕ) : String :=
  "(" ++ join " AND " (before.zipIdx.map (fun x => x.1.compare .equal (paramIdx + x.2)) ++
    [c.compare c.strict (paramIdx + before.length)]) ++ ")"

/-- The terms after the columns `before`, with the values they bind. -/
def keysetTerms (before : List KeyColumn) : List KeyColumn → ℕ → List String × List String
  | [], _ => ([], [])
  | c :: rest, paramIdx =>
    let more := keysetTerms (before ++ [c]) rest (paramIdx + before.length + 1)
    (keysetTerm before c paramIdx :: more.1, before.map KeyColumn.value ++ c.value :: more.2)

/-- The columns that get a term of their own: the sort columns, and the tiebreaker unless the sort
ends on `id` already. -/
def CursorPayload.keyColumns (p : CursorPayload) (casts : List (Option String))
    (backwards : Bool) : List KeyColumn :=
  p.columns casts backwards ++
    (if p.f.getLast? = some "id" then [] else [p.tiebreaker backwards])

/-- The keyset predicate and its bound values, continuing the parameter numbering at `paramIdx`. -/
def buildKeysetPredicate (p : CursorPayload) (paramIdx : ℕ) (casts : List (Option String))
    (backwards : Bool) : String × List String :=
  let terms := keysetTerms [] (p.keyColumns casts backwards) paramIdx
  (join " OR " terms.1, terms.2)

/-- AND the keyset predicate onto a built WHERE clause. The existing clause is parenthesised as a
whole first. -/
def andKeysetPredicate (whereClause keysetSql : String) : String :=
  match stripPrefix (trimStart whereClause) "WHERE " with
  | none => " WHERE " ++ keysetSql
  | some existing => " WHERE (" ++ existing ++ ") AND (" ++ keysetSql ++ ")"

end Backbone.Orm
