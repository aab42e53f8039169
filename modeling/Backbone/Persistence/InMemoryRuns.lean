import Backbone.Lib.Run
import Backbone.Persistence.InMemory

/-!
# Every run of the in-memory repository

`Sound` is what the two maps are meant to hold: no id in both, each entity under its own id, the
unmarked ones in the store and the marked ones in the trash. `Keeps` is what a call is meant to do:
leave the maps sound, discard nothing unless it is an update or a permanent delete, and change nothing
when it fails.

`create` looks for a taken id in the store alone, and neither it nor `update` looks at the deletion
mark; `bulk_create` stops at the first refusal with the entities before it created. `Meets` is the
condition under which none of this shows. From a sound repository a call keeps exactly when it meets
the condition, and so does a run.

Reference: `backbone-core/src/persistence/memory.rs`.
-/

namespace Backbone.Persistence

open Machine

namespace InMemoryRepository

variable {E : Type} [PersistentEntity E]

/-! ## What the maps are meant to hold -/

/-- The representation invariant. -/
structure Sound (repo : InMemoryRepository E) : Prop where
  disjoint : ∀ id ∈ repo.store, id ∉ repo.trash
  store_key : ∀ id e, repo.store.lookup id = some e → entityId e = id
  trash_key : ∀ id e, repo.trash.lookup id = some e → entityId e = id
  active : ∀ id e, repo.store.lookup id = some e → isDeleted e = false
  trashed : ∀ id e, repo.trash.lookup id = some e → isDeleted e = true

/-- An entity is on record, active or in the trash. -/
def Holds (repo : InMemoryRepository E) (id : String) (e : E) : Prop :=
  repo.store.lookup id = some e ∨ repo.trash.lookup id = some e

/-- The same record, up to its deletion mark and the time of its last update. -/
def SameRecord (e e' : E) : Prop :=
  e' = e ∨ (∃ now later, e' = markDeleted now later e) ∨ ∃ now, e' = unmarkDeleted now e

/-- Nothing on record is gone. -/
def Retains (repo repo' : InMemoryRepository E) : Prop :=
  ∀ id e, repo.Holds id e → ∃ e', repo'.Holds id e' ∧ SameRecord e e'

end InMemoryRepository

/-- The calls that may discard an entity. -/
def Write.discards {E : Type} : Write E → Bool
  | .update _ _ => true
  | .hardDelete _ => true
  | .emptyTrash => true
  | _ => false

namespace InMemoryRepository

variable {E : Type} [PersistentEntity E] {repo : InMemoryRepository E} {d : Draft E}
  {ds : List (Draft E)} {id : String} {m : Finmap fun _ : String => E} {k : String} {e : E}

/-- What a call is meant to do. -/
structure Keeps (repo : InMemoryRepository E) (w : Write E) : Prop where
  sound : (repo.step w).Sound
  retains : w.discards = false → repo.Retains (repo.step w)
  failed : ∀ refused, (repo.call w).1 = .error refused → repo.step w = repo

/-! ## When it does it -/

/-- A draft the store can take: its id is nowhere on record and it carries no deletion mark. -/
def Fits (repo : InMemoryRepository E) (d : Draft E) : Prop :=
  d.id ∉ repo.store ∧ d.id ∉ repo.trash ∧ isDeleted d.entity = false

/-- The condition on a call and the state it meets: what it stores fits, unless it is refused before
it stores anything. -/
def Meets (repo : InMemoryRepository E) : Write E → Prop
  | .create d => d.id ∈ repo.store ∨ repo.Fits d
  | .update e _ => entityId e ∈ repo.store → isDeleted e = false
  | .bulkCreate ds =>
    (∃ d ∈ ds.head?, d.id ∈ repo.store) ∨ (∀ d ∈ ds, repo.Fits d) ∧ (ds.map Draft.id).Nodup
  | _ => True

instance (repo : InMemoryRepository E) (d : Draft E) : Decidable (repo.Fits d) :=
  inferInstanceAs (Decidable (_ ∧ _ ∧ _))

instance (repo : InMemoryRepository E) : ∀ w, Decidable (repo.Meets w)
  | .create _ => inferInstanceAs (Decidable (_ ∨ _))
  | .update _ _ => inferInstanceAs (Decidable (_ → _))
  | .bulkCreate _ => inferInstanceAs (Decidable (_ ∨ _ ∧ _))
  | .softDelete _ _ _ => .isTrue trivial
  | .restore _ _ => .isTrue trivial
  | .hardDelete _ => .isTrue trivial
  | .emptyTrash => .isTrue trivial

/-! ## The empty repository -/

theorem sound_new : (new : InMemoryRepository E).Sound where
  disjoint := fun _ h => absurd h Finmap.notMem_empty
  store_key := by simp [new]
  trash_key := by simp [new]
  active := by simp [new]
  trashed := by simp [new]

theorem Retains.refl (repo : InMemoryRepository E) : repo.Retains repo :=
  fun _ e h => ⟨e, h, .inl rfl⟩

theorem SameRecord.refl (e : E) : SameRecord e e := .inl rfl

/-! ## One map at a time -/

theorem lookup_insert_some {x : E}
    (h : (m.insert id e).lookup k = some x) : k = id ∧ x = e ∨ k ≠ id ∧ m.lookup k = some x := by
  by_cases hk : k = id
  · subst hk
    rw [Finmap.lookup_insert] at h
    exact .inl ⟨rfl, (Option.some.inj h).symm⟩
  · rw [Finmap.lookup_insert_of_ne _ hk] at h
    exact .inr ⟨hk, h⟩

theorem lookup_erase_some {x : E}
    (h : (m.erase id).lookup k = some x) : k ≠ id ∧ m.lookup k = some x := by
  by_cases hk : k = id
  · subst hk
    rw [Finmap.lookup_erase] at h
    cases h
  · rw [Finmap.lookup_erase_ne hk] at h
    exact ⟨hk, h⟩

section

variable (h : repo.Sound)
include h

/-- An unmarked entity goes under its own id, free in the trash, into the store. -/
theorem Sound.insertStore {e : E} (hid : entityId e = id) (hfree : id ∉ repo.trash)
    (hactive : isDeleted e = false) :
    Sound { repo with store := repo.store.insert id e } where
  disjoint := by
    intro k hk
    rcases Finmap.mem_insert.mp hk with rfl | hk
    · exact hfree
    · exact h.disjoint k hk
  store_key := by
    intro k x hx
    rcases lookup_insert_some hx with ⟨rfl, rfl⟩ | ⟨-, hx⟩
    · exact hid
    · exact h.store_key k x hx
  trash_key := h.trash_key
  active := by
    intro k x hx
    rcases lookup_insert_some hx with ⟨rfl, rfl⟩ | ⟨-, hx⟩
    · exact hactive
    · exact h.active k x hx
  trashed := h.trashed

/-- A marked entity goes under its own id, free in the store, into the trash. -/
theorem Sound.insertTrash {e : E} (hid : entityId e = id) (hfree : id ∉ repo.store)
    (htrashed : isDeleted e = true) :
    Sound { repo with trash := repo.trash.insert id e } where
  disjoint := by
    intro k hk hk'
    rcases Finmap.mem_insert.mp hk' with rfl | hk'
    · exact hfree hk
    · exact h.disjoint k hk hk'
  store_key := h.store_key
  trash_key := by
    intro k x hx
    rcases lookup_insert_some hx with ⟨rfl, rfl⟩ | ⟨-, hx⟩
    · exact hid
    · exact h.trash_key k x hx
  active := h.active
  trashed := by
    intro k x hx
    rcases lookup_insert_some hx with ⟨rfl, rfl⟩ | ⟨-, hx⟩
    · exact htrashed
    · exact h.trashed k x hx

/-- What is taken out of either map leaves the rest sound. -/
theorem Sound.mono {repo' : InMemoryRepository E}
    (hstore : ∀ k x, repo'.store.lookup k = some x → repo.store.lookup k = some x)
    (htrash : ∀ k x, repo'.trash.lookup k = some x → repo.trash.lookup k = some x) :
    repo'.Sound where
  disjoint := by
    intro k hk hk'
    obtain ⟨x, hx⟩ := Finmap.mem_iff.mp hk
    obtain ⟨y, hy⟩ := Finmap.mem_iff.mp hk'
    exact h.disjoint k (Finmap.mem_iff.mpr ⟨x, hstore k x hx⟩)
      (Finmap.mem_iff.mpr ⟨y, htrash k y hy⟩)
  store_key := fun k x hx => h.store_key k x (hstore k x hx)
  trash_key := fun k x hx => h.trash_key k x (htrash k x hx)
  active := fun k x hx => h.active k x (hstore k x hx)
  trashed := fun k x hx => h.trashed k x (htrash k x hx)

variable (id : String)

theorem Sound.eraseStore : Sound { repo with store := repo.store.erase id } :=
  h.mono (fun _ _ hx => (lookup_erase_some hx).2) fun _ _ hx => hx

theorem Sound.eraseTrash : Sound { repo with trash := repo.trash.erase id } :=
  h.mono (fun _ _ hx => hx) fun _ _ hx => (lookup_erase_some hx).2

end

theorem retains_insertStore (hid : id ∉ repo.store) :
    repo.Retains { repo with store := repo.store.insert id e } := by
  rintro k x (hx | hx)
  · have hk : k ≠ id := by
      rintro rfl
      exact hid (Finmap.mem_of_lookup_eq_some hx)
    refine ⟨x, .inl ?_, .refl x⟩
    rw [Finmap.lookup_insert_of_ne _ hk]
    exact hx
  · exact ⟨x, .inr hx, .refl x⟩

/-! ## Creating -/

variable [LawfulEntity E]

theorem create_of_mem (h : d.id ∈ repo.store) :
    repo.create d =
      (.error (.alreadyExists ("Entity with ID " ++ d.id ++ " already exists")), repo) :=
  if_pos h

theorem create_of_notMem (h : d.id ∉ repo.store) :
    repo.create d = (.ok d.stamped, { repo with store := repo.store.insert d.id d.stamped }) := by
  rw [create, if_neg h, Draft.entityId_stamped]

theorem Sound.create (h : repo.Sound) (hd : repo.Fits d) : (repo.create d).2.Sound := by
  rw [create_of_notMem hd.1]
  exact h.insertStore d.entityId_stamped hd.2.1 (by rw [Draft.isDeleted_stamped, hd.2.2])

theorem bulkCreate_cons_of_mem (h : d.id ∈ repo.store) : (repo.bulkCreate (d :: ds)).2 = repo := by
  simp only [bulkCreate, create_of_mem h]

theorem bulkCreate_cons_of_notMem (h : d.id ∉ repo.store) :
    repo.bulkCreate (d :: ds) =
      (((repo.create d).2.bulkCreate ds).1.map (d.stamped :: ·),
        ((repo.create d).2.bulkCreate ds).2) := by
  simp only [bulkCreate, create_of_notMem h]

/-- Creating many leaves the trash alone and keeps every entity of the store where it is. -/
theorem bulkCreate_keeps (repo : InMemoryRepository E) (ds : List (Draft E)) :
    (repo.bulkCreate ds).2.trash = repo.trash ∧
      ∀ k x, repo.store.lookup k = some x → (repo.bulkCreate ds).2.store.lookup k = some x := by
  induction ds generalizing repo with
  | nil => exact ⟨rfl, fun _ _ hx => hx⟩
  | cons d ds ih =>
    by_cases hd : d.id ∈ repo.store
    · rw [bulkCreate_cons_of_mem hd]
      exact ⟨rfl, fun _ _ hx => hx⟩
    · rw [bulkCreate_cons_of_notMem hd]
      obtain ⟨htrash, hstore⟩ := ih (repo.create d).2
      rw [create_of_notMem hd] at htrash hstore ⊢
      refine ⟨htrash, fun k x hx => hstore k x ?_⟩
      have hk : k ≠ d.id := by
        rintro rfl
        exact hd (Finmap.mem_of_lookup_eq_some hx)
      rw [Finmap.lookup_insert_of_ne _ hk]
      exact hx

/-- A batch that is not refused had distinct, free ids, and each of its entities is stored. -/
theorem bulkCreate_ok {es : List E} (h : (repo.bulkCreate ds).1 = .ok es) :
    (∀ d ∈ ds, d.id ∉ repo.store ∧
        (repo.bulkCreate ds).2.store.lookup d.id = some d.stamped) ∧
      (ds.map Draft.id).Nodup := by
  induction ds generalizing repo es with
  | nil => exact ⟨by simp, by simp⟩
  | cons d ds ih =>
    by_cases hd : d.id ∈ repo.store
    · simp [bulkCreate, create_of_mem hd] at h
    rw [bulkCreate_cons_of_notMem hd] at h ⊢
    obtain ⟨es', hes'⟩ : ∃ es', ((repo.create d).2.bulkCreate ds).1 = .ok es' := by
      cases hrest : ((repo.create d).2.bulkCreate ds).1 with
      | error refused => rw [hrest] at h; cases h
      | ok es' => exact ⟨es', rfl⟩
    obtain ⟨hds, hnodup⟩ := ih hes'
    have hcreated : (repo.create d).2.store.lookup d.id = some d.stamped := by
      rw [create_of_notMem hd]
      exact Finmap.lookup_insert _
    -- what is free after the first is created was free before, and is not the first's id
    have hfree : ∀ d' ∈ ds, d'.id ≠ d.id ∧ d'.id ∉ repo.store := by
      intro d' hd'
      have hnot := (hds d' hd').1
      rw [create_of_notMem hd, Finmap.mem_insert, not_or] at hnot
      exact hnot
    refine ⟨?_, ?_⟩
    · intro d' hd'
      rcases List.mem_cons.mp hd' with rfl | hd'
      · exact ⟨hd, ((repo.create d').2.bulkCreate_keeps ds).2 _ _ hcreated⟩
      · exact ⟨(hfree d' hd').2, (hds d' hd').2⟩
    · rw [List.map_cons, List.nodup_cons]
      refine ⟨?_, hnodup⟩
      rintro hmem
      obtain ⟨d', hd', heq⟩ := List.mem_map.mp hmem
      exact (hfree d' hd').1 heq

/-- A batch that fits, under distinct ids, is created and the maps stay sound. -/
theorem Sound.bulkCreate (h : repo.Sound) (hds : ∀ d ∈ ds, repo.Fits d)
    (hnodup : (ds.map Draft.id).Nodup) :
    (∃ es, (repo.bulkCreate ds).1 = .ok es) ∧ (repo.bulkCreate ds).2.Sound := by
  induction ds generalizing repo with
  | nil => exact ⟨⟨[], rfl⟩, h⟩
  | cons d ds ih =>
    have hd := hds d List.mem_cons_self
    rw [List.map_cons, List.nodup_cons] at hnodup
    have hrest : ∀ d' ∈ ds, (repo.create d).2.Fits d' := by
      intro d' hd'
      obtain ⟨hstore, htrash, hactive⟩ := hds d' (List.mem_cons_of_mem _ hd')
      rw [create_of_notMem hd.1]
      refine ⟨?_, htrash, hactive⟩
      rw [Finmap.mem_insert, not_or]
      refine ⟨?_, hstore⟩
      intro heq
      exact hnodup.1 (heq ▸ List.mem_map_of_mem hd')
    obtain ⟨⟨es, hes⟩, hsound⟩ := ih (h.create hd) hrest hnodup.2
    rw [bulkCreate_cons_of_notMem hd.1, hes]
    exact ⟨⟨d.stamped :: es, rfl⟩, hsound⟩

/-- Creating many discards nothing. -/
theorem retains_bulkCreate (repo : InMemoryRepository E) (ds : List (Draft E)) :
    repo.Retains (repo.bulkCreate ds).2 := by
  obtain ⟨htrash, hstore⟩ := repo.bulkCreate_keeps ds
  rintro k x (hx | hx)
  · exact ⟨x, .inl (hstore k x hx), .refl x⟩
  · exact ⟨x, .inr (htrash ▸ hx), .refl x⟩

/-! ## A call keeps exactly when it meets the condition -/

section

variable (h : repo.Sound) (id : String) (now : ℤ)
include h

theorem keeps_of_refused {w : Write E} (hw : repo.step w = repo) :
    repo.Keeps w where
  sound := hw.symm ▸ h
  retains := fun _ => hw.symm ▸ .refl repo
  failed := fun _ _ => hw

theorem keeps_create (hd : repo.Meets (.create d)) : repo.Keeps (.create d) := by
  by_cases hmem : d.id ∈ repo.store
  · apply keeps_of_refused h
    simp only [step, call, create_of_mem hmem]
  · have hfits : repo.Fits d := hd.resolve_left hmem
    constructor
    case sound => exact h.create hfits
    case retains =>
      intro _
      simp only [step, call, create_of_notMem hmem]
      exact retains_insertStore hmem
    case failed =>
      intro refused hrefused
      simp [call, create_of_notMem hmem, Except.map] at hrefused

theorem keeps_update {e : E} {now : ℤ} (he : repo.Meets (.update e now)) :
    repo.Keeps (.update e now) := by
  by_cases hmem : entityId e ∈ repo.store
  · constructor
    case sound =>
      simp only [step, call, InMemoryRepository.update, if_pos hmem,
        LawfulEntity.entityId_setUpdatedAt]
      exact h.insertStore (by simp) (h.disjoint _ hmem) (by simpa using he hmem)
    case retains =>
      intro hw
      cases hw
    case failed =>
      intro refused hrefused
      simp [call, InMemoryRepository.update, hmem, Except.map] at hrefused
  · apply keeps_of_refused h
    simp only [step, call, InMemoryRepository.update, if_neg hmem]

theorem keeps_softDelete (later : ℤ) : repo.Keeps (.softDelete id now later) := by
  cases hlook : repo.store.lookup id with
  | none =>
    apply keeps_of_refused h
    simp only [step, call, softDelete, hlook]
  | some e =>
    have hmem : id ∈ repo.store := Finmap.mem_of_lookup_eq_some hlook
    constructor
    case sound =>
      simp only [step, call, softDelete, hlook]
      apply Sound.insertTrash (h.eraseStore id)
      · rw [entityId_markDeleted, h.store_key id e hlook]
      · exact Finmap.notMem_erase_self
      · exact isDeleted_markDeleted now later e
    case retains =>
      intro _
      simp only [step, call, softDelete, hlook]
      rintro k x (hx | hx)
      · by_cases hk : k = id
        · subst hk
          obtain rfl : e = x := Option.some.inj (hlook.symm.trans hx)
          exact ⟨_, .inr (Finmap.lookup_insert _), .inr (.inl ⟨now, later, rfl⟩)⟩
        · exact ⟨x, .inl (by rw [Finmap.lookup_erase_ne hk]; exact hx), .refl x⟩
      · have hk : k ≠ id := by
          rintro rfl
          exact h.disjoint k hmem (Finmap.mem_of_lookup_eq_some hx)
        exact ⟨x, .inr (by rw [Finmap.lookup_insert_of_ne _ hk]; exact hx), .refl x⟩
    case failed =>
      intro refused hrefused
      cases hrefused

theorem keeps_restore : repo.Keeps (.restore id now) := by
  cases hlook : repo.trash.lookup id with
  | none =>
    apply keeps_of_refused h
    simp only [step, call, InMemoryRepository.restore, hlook]
  | some e =>
    have hmem : id ∈ repo.trash := Finmap.mem_of_lookup_eq_some hlook
    constructor
    case sound =>
      simp only [step, call, InMemoryRepository.restore, hlook]
      apply Sound.insertStore (h.eraseTrash id)
      · rw [entityId_unmarkDeleted, h.trash_key id e hlook]
      · exact Finmap.notMem_erase_self
      · exact isDeleted_unmarkDeleted now e
    case retains =>
      intro _
      simp only [step, call, InMemoryRepository.restore, hlook]
      rintro k x (hx | hx)
      · have hk : k ≠ id := by
          rintro rfl
          exact h.disjoint k (Finmap.mem_of_lookup_eq_some hx) hmem
        exact ⟨x, .inl (by rw [Finmap.lookup_insert_of_ne _ hk]; exact hx), .refl x⟩
      · by_cases hk : k = id
        · subst hk
          obtain rfl : e = x := Option.some.inj (hlook.symm.trans hx)
          exact ⟨_, .inl (Finmap.lookup_insert _), .inr (.inr ⟨now, rfl⟩)⟩
        · exact ⟨x, .inr (by rw [Finmap.lookup_erase_ne hk]; exact hx), .refl x⟩
    case failed =>
      intro refused hrefused
      cases hrefused

theorem keeps_hardDelete :
    repo.Keeps (.hardDelete id) where
  sound := h.mono (fun _ _ hx => (lookup_erase_some hx).2) fun _ _ hx => (lookup_erase_some hx).2
  retains := fun hw => by cases hw
  failed := fun _ hrefused => by cases hrefused

theorem keeps_emptyTrash :
    repo.Keeps .emptyTrash where
  sound := by
    apply h.mono
    · exact fun _ _ hx => hx
    · intro k x hx
      simp [step, call, emptyTrash] at hx
  retains := fun hw => by cases hw
  failed := fun _ hrefused => by cases hrefused

theorem keeps_bulkCreate (hds : repo.Meets (.bulkCreate ds)) : repo.Keeps (.bulkCreate ds) := by
  rcases hds with ⟨d, hd, hmem⟩ | ⟨hfits, hnodup⟩
  · apply keeps_of_refused h
    obtain ⟨rest, rfl⟩ := List.head?_eq_some_iff.mp hd
    exact bulkCreate_cons_of_mem hmem
  · obtain ⟨⟨es, hes⟩, hsound⟩ := h.bulkCreate hfits hnodup
    constructor
    case sound => exact hsound
    case retains => exact fun _ => repo.retains_bulkCreate ds
    case failed =>
      intro refused hrefused
      simp [call, hes, Except.map] at hrefused

end

/-- What is in the store after a write that kept the maps sound fits the repository before it. -/
theorem fits_of_sound {repo' : InMemoryRepository E} (h : repo'.Sound) (hfree : d.id ∉ repo.store)
    (hin : repo'.store.lookup d.id = some d.stamped) (htrash : repo'.trash = repo.trash) :
    repo.Fits d := by
  refine ⟨hfree, ?_, ?_⟩
  · rw [← htrash]
    exact h.disjoint _ (Finmap.mem_of_lookup_eq_some hin)
  · rw [← Draft.isDeleted_stamped]
    exact h.active _ _ hin

theorem meets_create (h : repo.Keeps (.create d)) : repo.Meets (.create d) := by
  by_cases hmem : d.id ∈ repo.store
  · exact .inl hmem
  · refine .inr (fits_of_sound h.sound hmem ?_ ?_)
    · simp only [step, call, create_of_notMem hmem]
      exact Finmap.lookup_insert _
    · simp only [step, call, create_of_notMem hmem]

theorem meets_update {now : ℤ} (h : repo.Keeps (.update e now)) : repo.Meets (.update e now) := by
  intro hmem
  have hin : (repo.step (.update e now)).store.lookup (entityId e) = some (setUpdatedAt now e) := by
    simp only [step, call, InMemoryRepository.update, if_pos hmem,
      LawfulEntity.entityId_setUpdatedAt]
    exact Finmap.lookup_insert _
  have hactive := h.sound.active _ _ hin
  rwa [isDeleted_setUpdatedAt] at hactive

theorem meets_bulkCreate (h : repo.Keeps (.bulkCreate ds)) : repo.Meets (.bulkCreate ds) := by
  cases hanswer : (repo.bulkCreate ds).1 with
  | ok es =>
    obtain ⟨hds, hnodup⟩ := bulkCreate_ok hanswer
    refine .inr ⟨fun d hd => ?_, hnodup⟩
    exact fits_of_sound h.sound (hds d hd).1 (hds d hd).2 (repo.bulkCreate_keeps ds).1
  | error refused =>
    have hsame : (repo.bulkCreate ds).2 = repo := h.failed refused (by simp [call, hanswer, Except.map])
    cases ds with
    | nil => cases hanswer
    | cons d rest =>
      -- a first draft that was created is still in the store
      refine .inl ⟨d, rfl, ?_⟩
      by_contra hmem
      rw [bulkCreate_cons_of_notMem hmem] at hsame
      have hcreated : (repo.create d).2.store.lookup d.id = some d.stamped := by
        rw [create_of_notMem hmem]
        exact Finmap.lookup_insert _
      have hstill := ((repo.create d).2.bulkCreate_keeps rest).2 _ _ hcreated
      rw [hsame] at hstill
      exact hmem (Finmap.mem_of_lookup_eq_some hstill)

/-- From sound maps, a call keeps what it should exactly when it meets the condition. -/
theorem keeps_iff (h : repo.Sound) (w : Write E) : repo.Keeps w ↔ repo.Meets w := by
  cases w with
  | create d => exact ⟨meets_create, keeps_create h⟩
  | update e now => exact ⟨meets_update, keeps_update h⟩
  | softDelete id now later => exact iff_of_true (keeps_softDelete h id now later) trivial
  | restore id now => exact iff_of_true (keeps_restore h id now) trivial
  | hardDelete id => exact iff_of_true (keeps_hardDelete h id) trivial
  | bulkCreate ds => exact ⟨meets_bulkCreate, keeps_bulkCreate h⟩
  | emptyTrash => exact iff_of_true (keeps_emptyTrash h) trivial

/-! ## Runs -/

/-- Every call of a run from the empty repository leaves the maps sound, discards nothing it should
not and changes nothing when it fails, exactly when every call meets the condition. -/
theorem keeps_along_run (ws : List (Write E)) :
    Along step Keeps (new : InMemoryRepository E) ws ↔ Along step Meets new ws :=
  along_iff_of_invariant step (fun _ w h hw => ((keeps_iff h w).mpr hw).sound)
    (fun _ w h => keeps_iff h w) sound_new

end InMemoryRepository

/-! ## An entity of the tests -/

structure TestEntity where
  id : String
  name : String
  value : ℤ
  createdAt : Option ℤ
  updatedAt : Option ℤ
  deletedAt : Option ℤ
deriving DecidableEq

instance : PersistentEntity TestEntity where
  entityId e := e.id
  setEntityId id e := { e with id := id }
  createdAt e := e.createdAt
  setCreatedAt t e := { e with createdAt := some t }
  updatedAt e := e.updatedAt
  setUpdatedAt t e := { e with updatedAt := some t }
  deletedAt e := e.deletedAt
  setDeletedAt t e := { e with deletedAt := t }

instance : LawfulEntity TestEntity where
  entityId_setEntityId _ _ := rfl
  entityId_setCreatedAt _ _ := rfl
  entityId_setUpdatedAt _ _ := rfl
  entityId_setDeletedAt _ _ := rfl
  deletedAt_setEntityId _ _ := rfl
  deletedAt_setCreatedAt _ _ := rfl
  deletedAt_setUpdatedAt _ _ := rfl
  deletedAt_setDeletedAt _ _ := rfl

/-- `TestEntity::new` under an id of its own. -/
def TestEntity.named (id name : String) : TestEntity := ⟨id, name, 0, none, none, none⟩

/-- An entity is created, trashed and created again: two entities hold the id. -/
def createdTwice : List (Write TestEntity) :=
  [.create ⟨.named "a" "first", "", 1⟩, .softDelete "a" 2 2, .create ⟨.named "a" "second", "", 3⟩]

/-- An entity is created, trashed, restored and its neighbours created in a batch. -/
def createdOnce : List (Write TestEntity) :=
  [.create ⟨.named "a" "first", "", 1⟩, .softDelete "a" 2 2,
    .bulkCreate [⟨.named "" "second", "b", 3⟩, ⟨.named "c" "third", "", 3⟩], .restore "a" 4]

theorem keeps_along_createdOnce :
    Along InMemoryRepository.step InMemoryRepository.Keeps .new createdOnce :=
  (InMemoryRepository.keeps_along_run createdOnce).mpr (by decide)

theorem createdTwice_breaks :
    ¬ ∀ ws : List (Write TestEntity),
      Along InMemoryRepository.step InMemoryRepository.Keeps .new ws := by
  intro h
  obtain ⟨-, -, hkeeps, -⟩ := h createdTwice
  exact hkeeps.sound.disjoint "a" (by decide) (by decide)

end Backbone.Persistence
