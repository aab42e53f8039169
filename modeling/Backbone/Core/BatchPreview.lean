import Backbone.Core.BatchWrites

/-!
# The preview of a bulk patch

`preview_bulk_partial_update` takes each row through the steps of the write and keeps its outcome. It
asks the guard and the lifecycle, and looks the references up, but it does not run the write's hooks: so
a row is told as it would be handed to the repository where the hooks leave the patched entity alone, and
where a reference is refused with them and without.

Reference: `backbone-core/src/service.rs` (`preview_bulk_partial_update`, `preview_one`,
`bulk_partial_update`).
-/

namespace Backbone.Core

open Workflow (Value)

namespace SerdeEntity

variable {Val U : Type} (E : SerdeEntity Val) (S : BatchService Val U) {readId : String → Option Uuid}

/-! ## The write, up to the repository -/

/-- `bulk_partial_update` up to its repository write: the pairs it hands over. -/
def upToWrite (t : Records readId) (items : List (String × List (String × Value))) :
    Except BatchError (List (Entity Val × Entity Val)) := do
  checkItems "bulk partial update" (items.map Prod.fst)
  E.handedOver S (E.patchChange S) t 0 items

/-- A bulk patch that does not come to its write answers so and changes nothing; one that does is the
unit that writes the pairs. -/
theorem bulkPartialUpdate_eq (t : Records readId) (items : List (String × List (String × Value))) :
    E.bulkPartialUpdate S t items =
      match E.upToWrite S t items with
      | .error err => (.error err, t)
      | .ok pairs => unitOf S t ((E.updateEach S t 0 pairs).1.map Prod.snd, (do
          let saved ← (E.updateEach S t 0 pairs).2
          S.afterBulkUpdates ((pairs.map Prod.fst).zip saved)).mapError .service) := by
  unfold bulkPartialUpdate batchUpdate upToWrite batchWork
  cases checkItems "bulk partial update" (items.map Prod.fst) with
  | error err => rfl
  | ok _ =>
    cases hpairs : E.handedOver S (E.patchChange S) t 0 items with
    | error err =>
      exact (Orm.inWriteTxResult_eq _ S.commitRefused t [] (.error err)).1 err rfl
    | ok pairs => rfl

/-! ## What the preview is for -/

/-- A report tells of each item what the write of that item alone would do, and nothing is written. -/
def PreviewRight (t : Records readId) (items : List (String × List (String × Value))) : Prop :=
  (∀ rows, (E.previewBulkPartialUpdate S t items).1 = .ok rows →
    List.Forall₂ (fun item row => row.id = item.1 ∧ ∀ before after,
      row.outcome = .ok (before, after) ↔ E.upToWrite S t [item] = .ok [(before, after)])
      items rows) ∧
    (E.previewBulkPartialUpdate S t items).2 = t

/-- The steps of an item that come before the hooks. -/
def patched (fields : List (String × Value)) (before : Entity Val) :
    Except ServiceError (Entity Val) := do
  let patched ← E.mergePatch S.patch before fields
  (E.consult (E.updateCtx S.patch before patched)).mapError .violations
  S.beforeUpdate patched

/-- The hooks let the entity through as it is, or its references are refused with them and without. -/
def HooksSilent (before entity : Entity Val) : Prop :=
  S.hooksBeforeUpdate before entity = .ok entity ∨
    E.checkReferences S.patch before entity ≠ .ok () ∧
      ∀ altered, S.hooksBeforeUpdate before entity = .ok altered →
        E.checkReferences S.patch before altered ≠ .ok ()

/-- The condition on a batch: if it is not refused as a whole, the hooks are silent about every row that
is found and whose patch comes to them. -/
def PreviewMeets (t : Records readId) (items : List (String × List (String × Value))) : Prop :=
  items.length ≤ maxBatchSize → (items.map Prod.fst).Nodup → ∀ item ∈ items, ∀ before entity,
    E.findRow t false item.1 = .ok (some before) → E.patched S item.2 before = .ok entity →
      E.HooksSilent S before entity

/-! ## One item -/

section

variable {E S} {t : Records readId} {fields : List (String × Value)}
  {id : String} {before after : Entity Val}

theorem previewOne_eq_ok :
    E.previewOne S t id fields = .ok (before, after) ↔
      E.findRow t false id = .ok (some before) ∧ E.patched S fields before = .ok after ∧
        E.checkReferences S.patch before after = .ok () := by
  unfold previewOne patched
  simp only [bind_eq_ok, mapError_eq_ok]
  constructor
  · rintro ⟨found, hfound, hsteps⟩
    cases found with
    | none => cases hsteps
    | some before' =>
      simp only [bind_eq_ok, mapError_eq_ok, pure_eq_ok, Prod.mk.injEq] at hsteps
      obtain ⟨merged, hmerge, u, hconsult, entity, hentity, v, hrefs, rfl, rfl⟩ := hsteps
      exact ⟨hfound, ⟨merged, hmerge, u, hconsult, hentity⟩, hrefs⟩
  · rintro ⟨hfound, ⟨merged, hmerge, u, hconsult, hentity⟩, hrefs⟩
    refine ⟨some before, hfound, ?_⟩
    simp only [bind_eq_ok, mapError_eq_ok, pure_eq_ok]
    exact ⟨merged, hmerge, u, hconsult, after, hentity, (), hrefs, rfl⟩

/-- The write of one item runs the hooks on what the preview answers with. -/
theorem upToWrite_single_eq_ok :
    E.upToWrite S t [(id, fields)] = .ok [(before, after)] ↔
      E.findRow t false id = .ok (some before) ∧ ∃ entity, E.patched S fields before = .ok entity ∧
        S.hooksBeforeUpdate before entity = .ok after ∧
          E.checkReferences S.patch before after = .ok () := by
  have hchecked : checkItems "bulk partial update" ([(id, fields)].map Prod.fst) = .ok () :=
    checkItems_eq_ok.mpr ⟨by simp [maxBatchSize], by simp⟩
  unfold upToWrite
  rw [hchecked]
  unfold patched handedOver handedOver readiedItem readied
  simp only [bind_eq_ok, mapError_eq_ok, pure_eq_ok, patchChange]
  constructor
  · rintro ⟨_, -, pair, ⟨found, hfound, hsteps⟩, rest, hrest, hpair⟩
    cases found with
    | none => cases hsteps
    | some before' =>
      simp only [bind_eq_ok, mapError_eq_ok, pure_eq_ok] at hsteps
      obtain ⟨saved, ⟨merged, hmerge, u, hconsult, entity, hentity, altered, hhooks, v, hrefs, rfl⟩,
        rfl⟩ := hsteps
      obtain ⟨⟨rfl, rfl⟩, -⟩ := by simpa using hpair
      exact ⟨hfound, entity, ⟨merged, hmerge, u, hconsult, hentity⟩, hhooks, hrefs⟩
  · rintro ⟨hfound, entity, ⟨merged, hmerge, u, hconsult, hentity⟩, hhooks, hrefs⟩
    refine ⟨(), trivial, (before, after), ⟨some before, hfound, ?_⟩, [], rfl, rfl⟩
    simp only [bind_eq_ok, mapError_eq_ok, pure_eq_ok]
    exact ⟨after, ⟨merged, hmerge, u, hconsult, entity, hentity, after, hhooks, (), hrefs, rfl⟩, rfl⟩

/-- The preview and the write of an item agree exactly when the hooks are silent about it. -/
theorem item_agrees_iff {item : String × List (String × Value)} :
    (∀ before after, E.previewOne S t item.1 item.2 = .ok (before, after) ↔
        E.upToWrite S t [item] = .ok [(before, after)]) ↔
      ∀ before entity, E.findRow t false item.1 = .ok (some before) →
        E.patched S item.2 before = .ok entity → E.HooksSilent S before entity := by
  obtain ⟨id, fields⟩ := item
  simp only [previewOne_eq_ok, upToWrite_single_eq_ok]
  constructor
  · intro h before entity hfound hentity
    by_cases hrefs : E.checkReferences S.patch before entity = .ok ()
    · obtain ⟨-, entity', hentity', hhooks, -⟩ := (h before entity).mp ⟨hfound, hentity, hrefs⟩
      obtain rfl := Except.ok.inj (hentity.symm.trans hentity')
      exact .inl hhooks
    · refine .inr ⟨hrefs, fun altered hhooks haltered => ?_⟩
      obtain ⟨-, hpatched, -⟩ := (h before altered).mpr ⟨hfound, entity, hentity, hhooks, haltered⟩
      obtain rfl := Except.ok.inj (hentity.symm.trans hpatched)
      exact hrefs haltered
  · intro h before after
    constructor
    · rintro ⟨hfound, hentity, hrefs⟩
      rcases h before after hfound hentity with hhooks | ⟨hnot, -⟩
      · exact ⟨hfound, after, hentity, hhooks, hrefs⟩
      · exact absurd hrefs hnot
    · rintro ⟨hfound, entity, hentity, hhooks, hrefs⟩
      rcases h before entity hfound hentity with hsilent | ⟨-, hnot⟩
      · obtain rfl := Except.ok.inj (hsilent.symm.trans hhooks)
        exact ⟨hfound, hentity, hrefs⟩
      · exact absurd hrefs (hnot after hhooks)

end

/-! ## The theorem -/

/-- In every state and for every batch, the preview tells what the write would do exactly when the hooks
are silent about the rows it would come to them with. -/
theorem previewRight_iff (t : Records readId) (items : List (String × List (String × Value))) :
    E.PreviewRight S t items ↔ E.PreviewMeets S t items := by
  have hrows : ∀ rows, (E.previewBulkPartialUpdate S t items).1 = .ok rows ↔
      (items.length ≤ maxBatchSize ∧ (items.map Prod.fst).Nodup) ∧
        items.map (fun item => ⟨item.1, E.previewOne S t item.1 item.2⟩) = rows := by
    intro rows
    have hchecked := @checkItems_eq_ok (items.map Prod.fst) "bulk partial update"
    rw [List.length_map] at hchecked
    rw [← hchecked]
    unfold previewBulkPartialUpdate
    cases checkItems "bulk partial update" (items.map Prod.fst) with
    | error err => exact iff_of_false (fun h => by cases h) fun h => by cases h.1
    | ok _ => exact ⟨fun h => ⟨rfl, Except.ok.inj h⟩, fun h => congrArg Except.ok h.2⟩
  unfold PreviewRight PreviewMeets
  constructor
  · rintro ⟨hright, -⟩ hsize hnodup item hitem
    have hreport := hright _ ((hrows _).mpr ⟨⟨hsize, hnodup⟩, rfl⟩)
    rw [List.forall₂_map_right_iff, List.forall₂_same] at hreport
    exact item_agrees_iff.mp (hreport item hitem).2
  · intro hmeets
    refine ⟨fun rows h => ?_, rfl⟩
    obtain ⟨⟨hsize, hnodup⟩, rfl⟩ := (hrows rows).mp h
    rw [List.forall₂_map_right_iff, List.forall₂_same]
    intro item hitem
    exact ⟨rfl, item_agrees_iff.mpr (hmeets hsize hnodup item hitem)⟩

end SerdeEntity

/-! ### A hook that refuses -/

/-- The text of the one UUID in the table below. -/
def widgetId : String := "00000000-0000-0000-0000-000000000001"

/-- What is read of ids: one of them. -/
def readWidgetId (id : String) : Option Uuid := if id = widgetId then some 1 else none

/-- A table of one widget. -/
def oneWidget : Records readWidgetId where
  rows := [(1, Function.update (widget .null) "id" (.str widgetId))]
  primaryKey := List.nodup_singleton _
  idColumn := by
    intro r hr
    obtain rfl := List.mem_singleton.mp hr
    exact ⟨widgetId, rfl, if_pos rfl⟩

/-- Widgets behind a hook that lets none be changed. -/
def frozenWidgets : BatchService Value Unit where
  applyUpdate before _ := .ok before
  hooksBeforeUpdate _ _ := .error (.refused "frozen")

/-- The preview shows a widget renamed that the write refuses to rename. -/
theorem preview_without_hooks :
    ¬ ∀ (E : SerdeEntity Value) (S : BatchService Value Unit) (readId : String → Option Uuid)
        (t : Records readId) (items : List (String × List (String × Value))),
        E.PreviewRight S t items := by
  intro h
  have hright := h widgets frozenWidgets readWidgetId oneWidget [(widgetId, [("name", .str "nut")])]
  obtain ⟨before, after, hpreview⟩ : ∃ before after, widgets.previewOne frozenWidgets oneWidget
      widgetId [("name", .str "nut")] = .ok (before, after) := ⟨_, _, rfl⟩
  have hwrite : widgets.upToWrite frozenWidgets oneWidget [(widgetId, [("name", .str "nut")])] =
      .error (.service (.refused "frozen")) := rfl
  have hreport := hright.1 _ rfl
  rw [List.forall₂_map_right_iff, List.forall₂_same] at hreport
  have hreaches := ((hreport _ List.mem_cons_self).2 before after).mp hpreview
  rw [hwrite] at hreaches
  cases hreaches

end Backbone.Core
