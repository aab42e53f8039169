import Backbone.Lib.Pages
import Backbone.Lib.Text
import Backbone.Persistence.InMemoryRuns
import Backbone.Workflow.Expr
import Mathlib.Data.Finset.Sort
import Mathlib.Data.String.Basic

/-!
# Pages of the in-memory repository

`list`, `list_deleted` and `search` put a map in the order of its ids and cut a page out of it. The
offset of the page is a product of two `u32`s taken modulo `2 ^ 32`, as a release build computes it.
Up to the page at which that product leaves the range the pages partition the list; behind it a page
shows the rows of an earlier offset.

The order of Rust's strings, byte by byte in UTF-8, is the order of their characters. The JSON form of
an entity, the lower case of a text and the text of a float are parameters.

Reference: `backbone-core/src/persistence/memory.rs`.
-/

namespace Backbone.Persistence

open Machine
open Text (containsText)
open Workflow (Value)

variable {page limit : UInt32} {E : Type} {items : List E}

/-! ## The reads -/

/-- What `search` is given of serde and Unicode: `serde_json::to_value` on an entity,
`str::to_lowercase` and `serde_json`'s text of a float. -/
structure Serialization (E : Type) where
  toValue : E → Option Value
  toLowercase : String → String
  floatText : UInt64 → String

/-- `u32::saturating_sub`. -/
def saturatingSub (a b : UInt32) : UInt32 := if b ≤ a then a - b else 0

/-- `((page.saturating_sub(1)) * limit) as usize`. -/
def pageOffset (page limit : UInt32) : ℕ := (saturatingSub page 1 * limit).toNat

/-- `sort_by(|a, b| a.0.cmp(b.0))`, on the keys. -/
def sortedKeys {α : Type} [LinearOrder α] (keys : Finset α) : List α := keys.sort

/-- `ordered_by_id`. -/
def orderedById {E : Type} (map : Finmap fun _ : String => E) : List E :=
  (sortedKeys map.keys).filterMap map.lookup

/-- `skip(offset).take(limit)`. -/
def paginate {E : Type} (items : List E) (page limit : UInt32) : List E :=
  (items.drop (pageOffset page limit)).take limit.toNat

/-- `json.get(key)`. -/
def getField (key : String) : Value → Option Value
  | .obj fields => (fields.find? (·.1 == key)).map (·.2)
  | _ => none

/-- A field of an entity against the text of a filter. -/
def fieldMatches {E : Type} (S : Serialization E) (text : String) : Value → Bool
  | .str s => containsText (S.toLowercase s) (S.toLowercase text)
  | .num n => n.text S.floatText == text
  | .bool b => (if b then "true" else "false") == text
  | _ => false

/-- The test of `search`: every filter names a field of the entity that matches. -/
def entityMatches {E : Type} (S : Serialization E) (filters : List (String × String)) (e : E) :
    Bool :=
  match S.toValue e with
  | some json => filters.all fun f => (getField f.1 json).any (fieldMatches S f.2)
  | none => false

namespace InMemoryRepository

variable {E : Type} [PersistentEntity E]

/-- `with_data`. -/
def withData (entities : List E) : InMemoryRepository E :=
  ⟨entities.foldl (fun store e => store.insert (entityId e) e) ∅, ∅⟩

/-- `list`. -/
def list (repo : InMemoryRepository E) (page limit : UInt32) : List E × ℕ :=
  (paginate (orderedById repo.store) page limit, repo.store.keys.card)

/-- `list_deleted`. -/
def listDeleted (repo : InMemoryRepository E) (page limit : UInt32) : List E × ℕ :=
  (paginate (orderedById repo.trash) page limit, repo.trash.keys.card)

/-- The entities `search` pages through. -/
def matched (repo : InMemoryRepository E) (S : Serialization E)
    (filters : List (String × String)) : List E :=
  (orderedById repo.store).filter (entityMatches S filters)

/-- `search`. The order in which the filters are gone through decides nothing. -/
def search (repo : InMemoryRepository E) (S : Serialization E) (filters : List (String × String))
    (page limit : UInt32) : List E × ℕ :=
  (paginate (repo.matched S filters) page limit, (repo.matched S filters).length)

/-- `find_all_by_field`. -/
def findAllByField (repo : InMemoryRepository E) (S : Serialization E) (field value : String)
    (page limit : UInt32) : List E × ℕ :=
  repo.search S [(field, value)] page limit

end InMemoryRepository

/-! ## The offset -/

theorem pageOffset_eq (hpage : 1 ≤ page) (limit : UInt32) :
    pageOffset page limit = (page.toNat - 1) * limit.toNat % 2 ^ 32 := by
  have hsub : (page - 1).toNat = page.toNat - 1 := UInt32.toNat_sub_of_le page 1 hpage
  rw [pageOffset, saturatingSub, if_pos hpage, UInt32.toNat_mul, hsub]

/-- The offset is exact on the pages before the product leaves the range. -/
theorem pageOffset_of_lt (hpage : 1 ≤ page) (hlt : (page.toNat - 1) * limit.toNat < 2 ^ 32) :
    pageOffset page limit = (page.toNat - 1) * limit.toNat := by
  rw [pageOffset_eq hpage, Nat.mod_eq_of_lt hlt]

/-- Behind them it falls short. -/
theorem pageOffset_lt (hpage : 1 ≤ page) (hover : 2 ^ 32 ≤ (page.toNat - 1) * limit.toNat) :
    pageOffset page limit < (page.toNat - 1) * limit.toNat := by
  rw [pageOffset_eq hpage]
  exact Nat.lt_of_lt_of_le (Nat.mod_lt _ (by decide)) hover

theorem paginate_of_lt (hpage : 1 ≤ page)
    (hlt : (page.toNat - 1) * limit.toNat < 2 ^ 32) :
    paginate items page limit = Pages.slice items limit.toNat page.toNat := by
  rw [paginate, pageOffset_of_lt hpage hlt, Pages.slice, Pages.window]

/-- A page is its slice of the list exactly when the offset is exact or past the end all the same. -/
theorem paginate_eq_slice_iff (hnodup : items.Nodup) (hpage : 1 ≤ page)
    (hlimit : 0 < limit.toNat) :
    paginate items page limit = Pages.slice items limit.toNat page.toNat ↔
      (page.toNat - 1) * limit.toNat < 2 ^ 32 ∨ items.length ≤ pageOffset page limit := by
  by_cases hlt : (page.toNat - 1) * limit.toNat < 2 ^ 32
  · exact iff_of_true (paginate_of_lt hpage hlt) (.inl hlt)
  · have hshort := pageOffset_lt hpage (Nat.le_of_not_lt hlt)
    rw [or_iff_right hlt]
    exact Pages.window_eq_window_iff hnodup hlimit hshort

/-! ## Each entity under its own id -/

theorem mem_orderedById {map : Finmap fun _ : String => E} {e : E} :
    e ∈ orderedById map ↔ ∃ id, map.lookup id = some e := by
  simp only [orderedById, sortedKeys, List.mem_filterMap, Finset.mem_sort, Finmap.mem_keys]
  constructor
  · rintro ⟨id, -, hlookup⟩
    exact ⟨id, hlookup⟩
  · rintro ⟨id, hlookup⟩
    exact ⟨id, Finmap.mem_of_lookup_eq_some hlookup, hlookup⟩

section Keyed

variable {E : Type} [PersistentEntity E] {map : Finmap fun _ : String => E}

/-- A map that holds each entity under its own id. -/
def Keyed (map : Finmap fun _ : String => E) : Prop :=
  ∀ id e, map.lookup id = some e → entityId e = id

theorem keyed_empty : Keyed (∅ : Finmap fun _ : String => E) := by
  intro id e h
  rw [Finmap.lookup_empty] at h
  cases h

theorem Keyed.insert (h : Keyed map) {id : String} {e : E} (hid : entityId e = id) :
    Keyed (map.insert id e) := by
  intro k x hx
  rcases InMemoryRepository.lookup_insert_some hx with ⟨rfl, rfl⟩ | ⟨-, hx⟩
  · exact hid
  · exact h k x hx

theorem Keyed.erase (h : Keyed map) (id : String) : Keyed (map.erase id) := by
  intro k x hx
  exact h k x (InMemoryRepository.lookup_erase_some hx).2

/-- The list ascends in the ids. -/
theorem Keyed.pairwise_orderedById (h : Keyed map) :
    (orderedById map).Pairwise (entityId · < entityId ·) := by
  refine List.Pairwise.filterMap _ ?_ (Finset.sortedLT_sort map.keys).pairwise
  intro id id' hlt e he e' he'
  rw [h id e he, h id' e' he']
  exact hlt

namespace InMemoryRepository

variable {repo : InMemoryRepository E}

/-- Both maps do. -/
structure Indexed (repo : InMemoryRepository E) : Prop where
  store : Keyed repo.store
  trash : Keyed repo.trash

theorem indexed_withData (entities : List E) : (withData entities).Indexed where
  store := by
    have key : ∀ map : Finmap fun _ : String => E, Keyed map →
        Keyed (entities.foldl (fun store e => store.insert (entityId e) e) map) := by
      induction entities with
      | nil => exact fun map hmap => hmap
      | cons e es ih => exact fun map hmap => ih _ (hmap.insert rfl)
    exact key ∅ keyed_empty
  trash := keyed_empty

theorem Indexed.create (h : repo.Indexed) (d : Draft E) : (repo.create d).2.Indexed := by
  unfold InMemoryRepository.create
  split
  · exact h
  · exact ⟨h.store.insert rfl, h.trash⟩

theorem Indexed.bulkCreate (h : repo.Indexed) (ds : List (Draft E)) :
    (repo.bulkCreate ds).2.Indexed := by
  induction ds generalizing repo with
  | nil => exact h
  | cons d ds ih =>
    have hcreate := h.create d
    unfold InMemoryRepository.bulkCreate
    generalize repo.create d = r at hcreate ⊢
    obtain ⟨answer, repo'⟩ := r
    cases answer with
    | error refused => exact hcreate
    | ok entity => exact ih hcreate

variable [LawfulEntity E]

theorem Indexed.step (h : repo.Indexed) (w : Write E) : (repo.step w).Indexed := by
  cases w with
  | create d => exact h.create d
  | update e now =>
    simp only [InMemoryRepository.step, call, update]
    split
    · exact ⟨h.store.insert rfl, h.trash⟩
    · exact h
  | softDelete id now later =>
    simp only [InMemoryRepository.step, call, softDelete]
    cases he : repo.store.lookup id with
    | none => exact h
    | some e =>
      refine ⟨h.store.erase id, h.trash.insert ?_⟩
      rw [entityId_markDeleted]
      exact h.store id e he
  | restore id now =>
    simp only [InMemoryRepository.step, call, restore]
    cases he : repo.trash.lookup id with
    | none => exact h
    | some e =>
      refine ⟨h.store.insert ?_, h.trash.erase id⟩
      rw [entityId_unmarkDeleted]
      exact h.trash id e he
  | hardDelete id => exact ⟨h.store.erase id, h.trash.erase id⟩
  | bulkCreate ds => exact h.bulkCreate ds
  | emptyTrash => exact ⟨h.store, keyed_empty⟩

end InMemoryRepository

end Keyed

/-! ## The pages of a list -/

section Partition

variable {E : Type} [PersistentEntity E] {last : UInt32} {items : List E}

/-- Pages `1` to `last` of what is listed: each is its slice of the list in the order of the ids, no
two share an entity, together they are the front of the list, and past its end they are empty. -/
structure Partitioned (content : E → Prop) (items : List E) (answer : UInt32 → List E)
    (limit last : UInt32) : Prop where
  ordered : items.Pairwise (entityId · < entityId ·)
  complete : ∀ e, e ∈ items ↔ content e
  slice : ∀ page, 1 ≤ page → page ≤ last →
    answer page = (items.drop ((page.toNat - 1) * limit.toNat)).take limit.toNat
  disjoint : ∀ p q, 1 ≤ p → p ≤ last → 1 ≤ q → q ≤ last → p ≠ q → (answer p).Disjoint (answer q)
  concat : (List.range last.toNat).flatMap (fun n => answer (UInt32.ofNat (n + 1))) =
    items.take (last.toNat * limit.toNat)
  past_end : ∀ page, 1 ≤ page → page ≤ last → items.length ≤ (page.toNat - 1) * limit.toNat →
    answer page = []

/-- No page up to `last` has an offset outside `u32`. -/
def OffsetsFit (limit last : UInt32) : Prop :=
  ∀ page, 1 ≤ page → page ≤ last → (page.toNat - 1) * limit.toNat < 2 ^ 32

theorem offsetsFit_iff : OffsetsFit limit last ↔ (last.toNat - 1) * limit.toNat < 2 ^ 32 := by
  constructor
  · intro h
    by_cases hlast : 1 ≤ last
    · exact h last hlast (UInt32.le_refl last)
    · rw [UInt32.le_iff_toNat_le] at hlast
      have hzero : last.toNat - 1 = 0 := by
        have : (1 : UInt32).toNat = 1 := rfl
        omega
      rw [hzero, Nat.zero_mul]
      decide
  · intro h page _ hpage
    rw [UInt32.le_iff_toNat_le] at hpage
    exact Nat.lt_of_le_of_lt (Nat.mul_le_mul_right _ (Nat.sub_le_sub_right hpage 1)) h

theorem nodup_of_ordered (h : items.Pairwise (entityId · < entityId ·)) : items.Nodup := by
  apply h.imp
  rintro a b hlt rfl
  exact lt_irrefl _ hlt

/-- While the offsets fit, `paginate` partitions any list in the order of the ids. -/
theorem partitioned_paginate {content : E → Prop}
    (hordered : items.Pairwise (entityId · < entityId ·)) (hcontent : ∀ e, e ∈ items ↔ content e)
    (hfit : OffsetsFit limit last) :
    Partitioned content items (paginate items · limit) limit last where
  ordered := hordered
  complete := hcontent
  slice page hpage hlast := paginate_of_lt hpage (hfit page hpage hlast)
  disjoint p q hp hplast hq hqlast hne := by
    have hnodup := nodup_of_ordered hordered
    have hp' : 1 ≤ p.toNat := UInt32.le_iff_toNat_le.mp hp
    have hq' : 1 ≤ q.toNat := UInt32.le_iff_toNat_le.mp hq
    rw [paginate_of_lt hp (hfit p hp hplast), paginate_of_lt hq (hfit q hq hqlast)]
    rcases Nat.lt_or_gt_of_ne (fun heq => hne (UInt32.toNat_inj.mp heq)) with hlt | hlt
    · exact Pages.disjoint_slice hnodup hp' hlt
    · exact (Pages.disjoint_slice hnodup hq' hlt).symm
  concat := by
    rw [← Pages.flatMap_slice]
    refine List.flatMap_congr fun n hn => ?_
    have hn : n + 1 ≤ last.toNat := List.mem_range.mp hn
    have hto : (UInt32.ofNat (n + 1)).toNat = n + 1 :=
      UInt32.toNat_ofNat_of_lt' (Nat.lt_of_le_of_lt hn last.toNat_lt)
    have hpage : 1 ≤ UInt32.ofNat (n + 1) := by
      rw [UInt32.le_iff_toNat_le, hto]
      exact Nat.succ_le_succ (Nat.zero_le n)
    have hlast : UInt32.ofNat (n + 1) ≤ last := by
      rw [UInt32.le_iff_toNat_le, hto]
      exact hn
    rw [paginate_of_lt hpage (hfit _ hpage hlast), hto]
  past_end page hpage hlast hend := by
    rw [paginate_of_lt hpage (hfit page hpage hlast)]
    exact Pages.window_eq_nil_of_le hend

/-! ## The pages of a repository -/

namespace InMemoryRepository

/-- Pages `1` to `last` of the three reads of a repository are as the database-backed repositories
serve them. -/
structure PagesRight (repo : InMemoryRepository E) (S : Serialization E)
    (filters : List (String × String)) (limit last : UInt32) : Prop where
  list : Partitioned (fun e => ∃ id, repo.store.lookup id = some e) (orderedById repo.store)
    (fun page => (repo.list page limit).1) limit last
  listDeleted : Partitioned (fun e => ∃ id, repo.trash.lookup id = some e) (orderedById repo.trash)
    (fun page => (repo.listDeleted page limit).1) limit last
  search : Partitioned
    (fun e => (∃ id, repo.store.lookup id = some e) ∧ entityMatches S filters e = true)
    ((orderedById repo.store).filter (entityMatches S filters))
    (fun page => (repo.search S filters page limit).1) limit last
  fits : OffsetsFit limit last

variable {repo : InMemoryRepository E}

theorem Indexed.pagesRight (h : repo.Indexed) (S : Serialization E)
    (filters : List (String × String)) {last : UInt32} (hfit : OffsetsFit limit last) :
    repo.PagesRight S filters limit last where
  list := partitioned_paginate h.store.pairwise_orderedById (fun _ => mem_orderedById) hfit
  listDeleted := partitioned_paginate h.trash.pairwise_orderedById (fun _ => mem_orderedById) hfit
  search := by
    refine partitioned_paginate (h.store.pairwise_orderedById.filter _) (fun e => ?_) hfit
    rw [List.mem_filter, mem_orderedById]
  fits := hfit

/-- A page of `list` shows what it should exactly when its offset fits, or wraps to one past the end
of the list. -/
theorem Indexed.list_eq_slice_iff (h : repo.Indexed)
    (hpage : 1 ≤ page) (hlimit : 0 < limit.toNat) :
    (repo.list page limit).1 = Pages.slice (orderedById repo.store) limit.toNat page.toNat ↔
      (page.toNat - 1) * limit.toNat < 2 ^ 32 ∨
        (orderedById repo.store).length ≤ pageOffset page limit :=
  paginate_eq_slice_iff (nodup_of_ordered h.store.pairwise_orderedById) hpage hlimit

/-- Whatever data a repository starts with and whatever is written to it, its pages `1` to `last`
partition what it lists exactly when the offset of the last of them is a `u32`. -/
theorem pagesRight_iff [LawfulEntity E] (entities : List E) (ws : List (Write E))
    (S : Serialization E) (filters : List (String × String)) (limit last : UInt32) :
    (run step (withData entities) ws).PagesRight S filters limit last ↔
      (last.toNat - 1) * limit.toNat < 2 ^ 32 := by
  have hindexed : (run step (withData entities) ws).Indexed :=
    invariant_run step (fun _ w h => h.step w) ws (indexed_withData entities)
  constructor
  · intro h
    exact offsetsFit_iff.mp h.fits
  · intro hlt
    exact hindexed.pagesRight S filters (offsetsFit_iff.mpr hlt)

end InMemoryRepository

end Partition

/-- `TestEntity` as its derived serialisation writes it, its timestamps left blank, with the lower case
of ASCII. -/
def testSerialization : Serialization TestEntity where
  toValue e := some (.obj [("id", .str e.id), ("name", .str e.name), ("value", .num (.int e.value)),
    ("created_at", if e.createdAt.isSome then .str "" else .null),
    ("updated_at", if e.updatedAt.isSome then .str "" else .null),
    ("deleted_at", if e.deletedAt.isSome then .str "" else .null)])
  toLowercase := Text.asciiTables.lower
  floatText _ := ""

/-- The pages of a search by name, after a trashing. -/
theorem pagesRight_by_name :
    (run InMemoryRepository.step
      (.withData [.named "b" "second", .named "a" "first", .named "c" "third"])
      [.softDelete "b" 1 1]).PagesRight testSerialization [("name", "I")] 4 6 :=
  (InMemoryRepository.pagesRight_iff _ _ _ _ 4 6).mpr (by decide)

/-- Page 65537 of 65536 rows each has offset `0`: it shows the first page again. -/
theorem far_page_repeats :
    ¬ ∀ (entities : List TestEntity) (ws : List (Write TestEntity))
      (filters : List (String × String)) (limit last : UInt32), 1 ≤ limit →
      (run InMemoryRepository.step (.withData entities) ws).PagesRight testSerialization filters
        limit last := by
  intro h
  have hright := h [.named "a" "first"] [] [] 65536 65537 (by decide)
  have hindexed := InMemoryRepository.indexed_withData [TestEntity.named "a" "first"]
  have hslice := hright.list.slice 65537 (by decide) (UInt32.le_refl _)
  have hmem : TestEntity.named "a" "first" ∈
      orderedById (InMemoryRepository.withData [TestEntity.named "a" "first"]).store := by
    refine mem_orderedById.mpr ⟨"a", ?_⟩
    change ((∅ : Finmap fun _ : String => TestEntity).insert "a" _).lookup "a" = _
    exact Finmap.lookup_insert _
  rcases (hindexed.list_eq_slice_iff (by decide) (by decide)).mp hslice with hfit | hend
  · exact absurd hfit (by decide)
  · have hoffset : pageOffset 65537 65536 = 0 := by decide
    rw [hoffset, Nat.le_zero, List.length_eq_zero_iff] at hend
    rw [hend] at hmem
    cases hmem

end Backbone.Persistence
