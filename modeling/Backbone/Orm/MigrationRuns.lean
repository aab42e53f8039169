import Mathlib.Data.List.Chain
import Backbone.Orm.Migrations

/-!
# Runs of migrations and rollbacks

A rollback reads which migration is the last one, and another statement later deletes the row of
that name, whether it is there or not; `status` takes the last name for the last migration. The
executions of every migration alternate, each rollback undoes the migration most recently applied,
and `status` names the one a rollback would take, in exactly the runs where each committed rollback
has deleted the youngest row and each `status` finds its last name in the youngest row. -/

namespace Backbone.Orm.Migrations

variable {c : Collation} {w : World} {i j : ℕ} {name : String} {rows : List Row} {p : Option Point}
  {a : ℕ × Move} (call : Call) (dir : List String)

/-! ## What a call holds -/

namespace Point

/-- The name whose row the call's open transaction has inserted or deleted. -/
def key? : Point → Option String
  | .applying name _ (.recorded _) => some name
  | .rollingBack name _ (.deleted (some _)) => some name
  | _ => none

/-- The start of the call's open transaction, if it applies a migration. -/
def began? : Point → Option ℕ
  | .applying _ _ (.opened start) => some start
  | .applying _ _ (.executed start) => some start
  | .applying _ _ (.recorded start) => some start
  | _ => none

/-- The row a transaction has inserted is not there for the others, the row it has deleted still is.
-/
def Fits (rows : List Row) : Point → Prop
  | .applying name _ (.recorded _) => name ∉ rows.map Row.name
  | .rollingBack name _ (.deleting row) => row.name = name
  | .rollingBack name _ (.deleted (some row)) => row ∈ rows ∧ row.name = name
  | _ => True

/-- The other rows do not matter to a call. -/
theorem Fits.congr {rows' : List Row} {p : Point} (h : p.Fits rows)
    (hsame : ∀ name ∈ p.key?, ∀ row : Row, row.name = name → (row ∈ rows ↔ row ∈ rows')) :
    p.Fits rows' := by
  unfold Fits at h ⊢
  split at h
  · rename_i name _ _
    intro hmem
    obtain ⟨row, hrow, hname⟩ := List.mem_map.mp hmem
    exact h (List.mem_map.mpr ⟨row, (hsame name rfl row hname).mpr hrow, hname⟩)
  · exact h
  · rename_i name _ row
    exact ⟨(hsame name rfl row h.2).mp h.1, h.2⟩
  · trivial

/-- The call has written nothing and holds nothing. -/
def Quiet (p : Point) : Prop := p.key? = none ∧ p.began? = none ∧ ∀ rows, p.Fits rows

theorem bind_key_of_quiet (hp : ∀ q ∈ p, q.Quiet) : p.bind key? = none := by
  cases p with
  | none => rfl
  | some p => exact (hp p rfl).1

theorem bind_began_of_quiet (hp : ∀ q ∈ p, q.Quiet) : p.bind began? = none := by
  cases p with
  | none => rfl
  | some p => exact (hp p rfl).2.1

end Point

theorem quiet_creating : (Point.creating call).Quiet := ⟨rfl, rfl, fun _ => trivial⟩

theorem quiet_reading : (Point.reading call).Quiet := ⟨rfl, rfl, fun _ => trivial⟩

theorem quiet_first : ∀ p ∈ call.first, p.Quiet := by
  intro p hp
  unfold Call.first at hp
  split at hp
  · cases hp
  · obtain rfl := Option.mem_some_iff.mp hp
    exact quiet_reading _
  · obtain rfl := Option.mem_some_iff.mp hp
    exact quiet_creating _

theorem quiet_applyNext (names : List String) : ∀ p ∈ applyNext names, p.Quiet := by
  intro p hp
  cases names with
  | nil => cases hp
  | cons name rest =>
    obtain rfl := Option.mem_some_iff.mp hp
    exact ⟨rfl, rfl, fun _ => trivial⟩

theorem quiet_rollbackLast (rows : List Row) (left : ℕ) :
    ∀ p ∈ rollbackLast dir rows left, p.Quiet := by
  intro p hp
  unfold rollbackLast at hp
  split at hp
  · split at hp
    · obtain rfl := Option.mem_some_iff.mp hp
      exact ⟨rfl, rfl, fun _ => trivial⟩
    · cases hp
  · cases hp

theorem quiet_afterRead (rows : List Row) (call : Call) :
    ∀ p ∈ call.afterRead c dir rows, p.Quiet := by
  cases call with
  | migrate => exact quiet_applyNext _
  | rollback => exact quiet_rollbackLast _ _ _
  | rollbackN count => exact quiet_rollbackLast _ _ _
  | status => exact fun p hp => by cases hp

namespace World

def key (w : World) (i : ℕ) : Option String := (w.calls i).bind Point.key?

def began (w : World) (i : ℕ) : Option ℕ := (w.calls i).bind Point.began?

@[simp] theorem calls_goto (w : World) (i : ℕ) (p : Option Point) :
    (w.goto i p).calls = Function.update w.calls i p := rfl

@[simp] theorem calls_free (w : World) (i : ℕ) : (w.free i).calls = w.calls := rfl

@[simp] theorem key_goto (w : World) (i j : ℕ) (p : Option Point) :
    (w.goto i p).key j = if j = i then p.bind Point.key? else w.key j := by
  by_cases h : j = i
  · simp [key, h]
  · simp [key, h]

@[simp] theorem began_goto (w : World) (i j : ℕ) (p : Option Point) :
    (w.goto i p).began j = if j = i then p.bind Point.began? else w.began j := by
  by_cases h : j = i
  · simp [began, h]
  · simp [began, h]

/-- What holds between the rows, the locks and the open transactions. -/
structure Inv (w : World) : Prop where
  kept : w.Kept
  names : (w.rows.map Row.name).Nodup
  times : (w.rows.map Row.appliedAt).Nodup
  past : ∀ row ∈ w.rows, row.appliedAt < w.clock
  locks : ∀ name i, w.locks name = some i ↔ w.key i = some name
  fits : ∀ i, ∀ p ∈ w.calls i, p.Fits w.rows
  began : ∀ i t, w.began i = some t → t < w.clock ∧ t ∉ w.rows.map Row.appliedAt
  apart : ∀ i j t, w.began i = some t → w.began j = some t → i = j

theorem kept_new : new.Kept := by
  intro name
  simp [new, executions]

theorem inv_new : Inv new where
  kept := kept_new
  names := List.nodup_nil
  times := List.nodup_nil
  past _ h := by cases h
  locks name i := by simp [new, key]
  fits i p h := by cases h
  began i t h := by cases h
  apart i j t h := by cases h

/-! ## A transaction ends -/

section

variable (h : Inv w)
include h

/-- The transaction of `i` ends, and the committed rows and executions are what they are then. -/
theorem Inv.settle {log : List (String × Script)}
    (hkept : ({ w with rows := rows, log := log } : World).Kept)
    (hnames : (rows.map Row.name).Nodup) (htimes : (rows.map Row.appliedAt).Nodup)
    (hpast : ∀ row ∈ rows, row.appliedAt < w.clock) (hfits : ∀ j ≠ i, ∀ q ∈ w.calls j, q.Fits rows)
    (hbegan : ∀ j ≠ i, ∀ t, w.began j = some t → t ∉ rows.map Row.appliedAt)
    (hkey : p.bind Point.key? = none)
    (hsame : ∀ t, p.bind Point.began? = some t → w.began i = some t ∧ t ∉ rows.map Row.appliedAt)
    (hp : ∀ q ∈ p, q.Fits rows) :
    Inv ((({ w with rows := rows, log := log } : World).free i).goto i p) where
  kept := hkept
  names := hnames
  times := htimes
  past := hpast
  locks name j := by
    have hl := h.locks name
    show (if w.locks name = some i then none else w.locks name) = some j ↔ _
    rw [key_goto]
    by_cases hj : j = i
    · subst hj
      simp [hkey]
    · rw [if_neg hj]
      show _ ↔ w.key j = some name
      rw [← hl j]
      split
      · rename_i hi
        rw [hi]
        simp [Ne.symm hj]
      · rfl
  fits j q hq := by
    by_cases hj : j = i
    · subst hj
      exact hp q (by simpa using hq)
    · exact hfits j hj q (by simpa [Function.update_of_ne hj] using hq)
  began j t ht := by
    rw [began_goto] at ht
    split at ht
    · obtain ⟨hi, hnot⟩ := hsame t ht
      exact ⟨(h.began i t hi).1, hnot⟩
    · rename_i hj
      exact ⟨(h.began j t ht).1, hbegan j hj t ht⟩
  apart j k t hj hk := by
    have hold (l : ℕ) (hl : ((({ w with rows := rows, log := log } : World).free i).goto i p).began
        l = some t) : w.began l = some t := by
      rw [began_goto] at hl
      split at hl
      · rename_i heq
        exact heq ▸ (hsame t hl).1
      · exact hl
    exact h.apart j k t (hold j hj) (hold k hk)

/-- The call goes on without a lock, or ends. -/
theorem Inv.free (hkey : p.bind Point.key? = none)
    (hsame : ∀ t, p.bind Point.began? = some t → w.began i = some t) (hp : ∀ q ∈ p, q.Fits w.rows) :
    Inv ((w.free i).goto i p) :=
  have hsettle : Inv (({ w with rows := w.rows, log := w.log }.free i).goto i p) :=
    h.settle h.kept h.names h.times h.past (fun j _ => h.fits j)
      (fun j _ t ht => (h.began j t ht).2) hkey
      (fun t ht => ⟨hsame t ht, (h.began i t (hsame t ht)).2⟩) hp
  hsettle

/-- A call that holds no lock goes on without one. -/
theorem Inv.move (hidle : w.key i = none) (hkey : p.bind Point.key? = none)
    (hsame : ∀ t, p.bind Point.began? = some t → w.began i = some t) (hp : ∀ q ∈ p, q.Fits w.rows) :
    Inv (w.goto i p) := by
  have hfree : w.free i = w := by
    have hlocks : (w.free i).locks = w.locks := by
      funext name
      refine if_neg fun hi => ?_
      rw [(h.locks name i).mp hi] at hidle
      cases hidle
    exact congrArg (fun locks => { w with locks := locks }) hlocks
  exact hfree ▸ h.free hkey hsame hp

theorem Inv.quiet (hidle : w.key i = none) (hp : ∀ q ∈ p, q.Quiet) : Inv (w.goto i p) := by
  refine h.move hidle (Point.bind_key_of_quiet hp) (fun t ht => ?_) fun q hq => (hp q hq).2.2 _
  rw [Point.bind_began_of_quiet hp] at ht
  cases ht

/-- The call takes the lock of a name. -/
theorem Inv.lock (hfree : w.locks name = none) (hidle : w.key i = none) {p : Point}
    (hkey : p.key? = some name) (hsame : ∀ t, p.began? = some t → w.began i = some t)
    (hp : p.Fits w.rows) : Inv ((w.lock name i).goto i (some p)) where
  kept := h.kept
  names := h.names
  times := h.times
  past := h.past
  locks other j := by
    have hl := h.locks other j
    show Function.update w.locks name (some i) other = some j ↔ _
    rw [key_goto, Option.bind_some, hkey]
    show _ ↔ (if j = i then some name else w.key j) = some other
    by_cases hname : other = name
    · subst hname
      rw [Function.update_self]
      split
      · rename_i hj
        simp [hj]
      · rename_i hj
        rw [← hl, hfree]
        simp [Ne.symm hj]
    · rw [Function.update_of_ne hname, hl]
      split
      · rename_i hj
        rw [hj, hidle]
        simp [Ne.symm hname]
      · rfl
  fits j q hq := by
    by_cases hj : j = i
    · subst hj
      have hq : some p = some q := by simpa using hq
      exact Option.some.inj hq ▸ hp
    · refine h.fits j q ?_
      rwa [calls_goto, Function.update_of_ne hj] at hq
  began j t ht := by
    rw [began_goto] at ht
    split at ht
    · exact h.began i t (hsame t ht)
    · exact h.began j t ht
  apart j k t hj hk := by
    have hold : ∀ l, ((w.lock name i).goto i (some p)).began l = some t → w.began l = some t := by
      intro l hl
      rw [began_goto] at hl
      split at hl
      · rename_i heq
        exact heq ▸ hsame t hl
      · exact hl
    exact h.apart j k t (hold j hj) (hold k hk)

/-- A transaction begins that applies a migration. -/
theorem Inv.openUp (hidle : w.key i = none) (rest : List String) :
    Inv ({ w with clock := w.clock + 1 }.goto i (some (.applying name rest (.opened w.clock)))) where
  kept := h.kept
  names := h.names
  times := h.times
  past row hrow := Nat.lt_succ_of_lt (h.past row hrow)
  locks other j := by
    have hl := h.locks other j
    rw [key_goto]
    split
    · rename_i hj
      rw [hj, hidle] at hl
      rw [hj]
      exact hl
    · exact hl
  fits j q hq := by
    by_cases hj : j = i
    · subst hj
      have hq : some (Point.applying name rest (.opened w.clock)) = some q := by simpa using hq
      exact Option.some.inj hq ▸ trivial
    · refine h.fits j q ?_
      rwa [calls_goto, Function.update_of_ne hj] at hq
  began j t ht := by
    rw [began_goto] at ht
    split at ht
    · obtain rfl := Option.some.inj ht
      refine ⟨Nat.lt_succ_self _, fun hmem => ?_⟩
      obtain ⟨row, hrow, heq⟩ := List.mem_map.mp hmem
      exact absurd heq (h.past row hrow).ne
    · obtain ⟨hlt, hnot⟩ := h.began j t ht
      exact ⟨Nat.lt_succ_of_lt hlt, hnot⟩
  apart j k t hj hk := by
    rw [began_goto] at hj hk
    have hlate : ∀ l, w.began l ≠ some w.clock := fun l hl => absurd (h.began l _ hl).1 (lt_irrefl _)
    split at hj
    · rename_i hji
      obtain rfl := Option.some.inj hj
      split at hk
      · rename_i hki
        rw [hji, hki]
      · exact absurd hk (hlate k)
    · split at hk
      · obtain rfl := Option.some.inj hk
        exact absurd hj (hlate j)
      · exact h.apart j k t hj hk

theorem Inv.tick : Inv { w with clock := w.clock + 1 } where
  kept := h.kept
  names := h.names
  times := h.times
  past row hrow := Nat.lt_succ_of_lt (h.past row hrow)
  locks := h.locks
  fits := h.fits
  began i t ht := ⟨Nat.lt_succ_of_lt (h.began i t ht).1, (h.began i t ht).2⟩
  apart := h.apart

theorem Inv.create : Inv { w with created := true } where
  kept := h.kept
  names := h.names
  times := h.times
  past := h.past
  locks := h.locks
  fits := h.fits
  began := h.began
  apart := h.apart

end

/-! ## A transaction commits -/

theorem executions_record (w : World) (rows : List Row) (name other : String) (script : Script) :
    (w.record rows name script).executions other =
      w.executions other ++ if name = other then [script] else [] := by
  simp only [executions, record, List.filter_append, List.map_append]
  by_cases h : name = other
  · simp [h]
  · simp [h]

/-- A script is executed that is not the one executed last, the first time `up`, and the ledger
follows it. -/
theorem Kept.record (h : w.Kept) {script : Script}
    (hbefore : name ∈ w.rows.map Row.name ↔ script = .down)
    (hafter : ∀ other, other ∈ rows.map Row.name ↔
      if name = other then script = .up else other ∈ w.rows.map Row.name) :
    (w.record rows name script).Kept := by
  intro other
  obtain ⟨hchain, hhead, hlast⟩ := h other
  rw [executions_record]
  have hmem : other ∈ (w.record rows name script).rows.map Row.name ↔ _ := hafter other
  rw [hmem]
  by_cases hname : name = other
  · subst hname
    rw [if_pos rfl, if_pos rfl]
    rw [hbefore] at hlast
    refine ⟨?_, ?_, by simp⟩
    · refine List.isChain_append.mpr ⟨hchain, List.isChain_singleton _, ?_⟩
      intro x hx y hy
      obtain rfl : script = y := by simpa using hy
      have hx : (w.executions name).getLast? = some x := hx
      rw [hx] at hlast
      cases x with
      | up => cases script with
        | up => exact absurd (hlast.mpr rfl) (by decide)
        | down => decide
      | down => cases script with
        | up => decide
        | down => exact absurd (hlast.mp rfl) (by decide)
    · cases hl : w.executions name with
      | nil =>
        rw [hl] at hlast
        cases script with
        | up => simp
        | down => exact absurd (hlast.mp rfl) (by simp)
      | cons x l =>
        rw [hl] at hhead
        simpa using hhead
  · rw [if_neg hname, if_neg hname, List.append_nil]
    exact ⟨hchain, hhead, hlast⟩

/-- Two calls do not hold the lock of one name. -/
theorem Inv.eq_of_key (h : Inv w) (hi : w.key i = some name) (hj : w.key j = some name) : j = i :=
  Option.some.inj (((h.locks name j).mpr hj).symm.trans ((h.locks name i).mpr hi))

/-- To the other calls only the row of the name has changed. -/
theorem Inv.fits_others (h : Inv w) (hkey : w.key i = some name)
    (hrows : ∀ row : Row, row.name ≠ name → (row ∈ w.rows ↔ row ∈ rows)) :
    ∀ j ≠ i, ∀ q ∈ w.calls j, q.Fits rows := by
  intro j hj q hq
  refine (h.fits j q hq).congr fun other hother row hrow => hrows row ?_
  rintro rfl
  refine hj (h.eq_of_key hkey ?_)
  rw [key, hq, hrow]
  exact hother

theorem Inv.commitUp (h : Inv w) {rest : List String} {start : ℕ}
    (hcall : w.calls i = some (.applying name rest (.recorded start))) (hp : ∀ q ∈ p, q.Quiet) :
    Inv (((w.record (w.rows ++ [⟨name, start⟩]) name .up).free i).goto i p) := by
  have hkey : w.key i = some name := by
    rw [key, hcall]
    rfl
  have hstart : w.began i = some start := by
    rw [World.began, hcall]
    rfl
  have hnew : name ∉ w.rows.map Row.name := h.fits i _ hcall
  obtain ⟨hpast, hfresh⟩ := h.began i start hstart
  refine h.settle (h.kept.record ?_ ?_) ?_ ?_ ?_ (h.fits_others hkey ?_) ?_
    (Point.bind_key_of_quiet hp) ?_ fun q hq => (hp q hq).2.2 _
  · simp [hnew]
  · intro other
    rw [List.map_append, List.mem_append]
    by_cases hname : name = other
    · simp [hname]
    · simp [hname, Ne.symm hname]
  · rw [List.map_append, List.nodup_append]
    refine ⟨h.names, List.nodup_singleton _, ?_⟩
    rintro a ha b hb rfl
    obtain rfl : a = name := by simpa using hb
    exact hnew ha
  · rw [List.map_append, List.nodup_append]
    refine ⟨h.times, List.nodup_singleton _, ?_⟩
    rintro a ha b hb rfl
    obtain rfl : a = start := by simpa using hb
    exact hfresh ha
  · intro row hrow
    rcases List.mem_append.mp hrow with hrow | hrow
    · exact h.past row hrow
    · obtain rfl := List.mem_singleton.mp hrow
      exact hpast
  · intro row hrow
    rw [List.mem_append, List.mem_singleton, or_iff_left]
    rintro rfl
    exact hrow rfl
  · intro j hj t ht
    rw [List.map_append, List.mem_append]
    rintro (hmem | hmem)
    · exact (h.began j t ht).2 hmem
    · obtain rfl : t = start := by simpa using hmem
      exact hj (h.apart j i t ht hstart)
  · intro t ht
    rw [Point.bind_began_of_quiet hp] at ht
    cases ht

theorem Inv.commitDown (h : Inv w) {left : ℕ} {row : Row}
    (hcall : w.calls i = some (.rollingBack name left (.deleted (some row))))
    (hp : ∀ q ∈ p, q.Quiet) : Inv (((w.record (w.rows.erase row) name .down).free i).goto i p) := by
  have hkey : w.key i = some name := by
    rw [key, hcall]
    rfl
  obtain ⟨hrow, rfl⟩ : row ∈ w.rows ∧ row.name = name := h.fits i _ hcall
  have hnodup : w.rows.Nodup := h.names.of_map _
  have hsub : w.rows.erase row ⊆ w.rows := fun _ => List.mem_of_mem_erase
  refine h.settle (h.kept.record ?_ ?_) ?_ ?_ (fun r hr => h.past r (hsub hr))
    (h.fits_others hkey ?_) ?_ (Point.bind_key_of_quiet hp) ?_ fun q hq => (hp q hq).2.2 _
  · simp only [iff_true]
    exact List.mem_map_of_mem hrow
  · intro other
    by_cases hname : row.name = other
    · rw [if_pos hname]
      refine iff_of_false (fun hmem => ?_) (by decide)
      obtain ⟨r, hr, heq⟩ := List.mem_map.mp hmem
      obtain ⟨hne, hr⟩ := hnodup.mem_erase_iff.mp hr
      exact hne (List.inj_on_of_nodup_map h.names hr hrow (heq.trans hname.symm))
    · rw [if_neg hname]
      constructor
      · exact fun hmem => List.map_subset _ hsub hmem
      · intro hmem
        obtain ⟨r, hr, rfl⟩ := List.mem_map.mp hmem
        refine List.mem_map_of_mem (hnodup.mem_erase_iff.mpr ⟨?_, hr⟩)
        rintro rfl
        exact hname rfl
  · exact h.names.sublist (List.erase_sublist.map _)
  · exact h.times.sublist (List.erase_sublist.map _)
  · intro r hr
    rw [hnodup.mem_erase_iff, and_iff_right]
    rintro rfl
    exact hr rfl
  · intro j _ t ht hmem
    exact (h.began j t ht).2 (List.map_subset _ hsub hmem)
  · intro t ht
    rw [Point.bind_began_of_quiet hp] at ht
    cases ht

end World

/-! ## Sound runs -/

/-- What is asked of a step: the executions alternate after it, a rollback it commits undoes the
migration most recently applied, and a `status` it answers names the one a rollback would take. -/
structure Sound (c : Collation) (w : World) (a : ℕ × Move) : Prop where
  kept : (w.step c a).Kept
  undone : ∀ name, w.undone a = some name → MostRecent w.rows name
  answered : ∀ status, w.answer c a = some status →
    status.lastMigration = getLastAppliedMigration w.rows

/-- The last name of the ledger is that of its youngest row. -/
def LastIsYoungest (c : Collation) (rows : List Row) : Prop :=
  ∀ row ∈ rows, (∀ r ∈ rows, c.le r.name row.name = true) → ∀ r ∈ rows, r.appliedAt ≤ row.appliedAt

/-- A rollback that commits has deleted a row, the youngest; a `status` reads a ledger whose last
name is in the youngest row. -/
def Met (c : Collation) (w : World) : ℕ × Move → Prop
  | (i, .commit _) => ∀ name left deleted,
    w.calls i = some (.rollingBack name left (.deleted deleted)) →
      ∃ row, deleted = some row ∧ ∀ r ∈ w.rows, r.appliedAt ≤ row.appliedAt
  | (i, .read _) => w.created = true → w.calls i = some (.reading .status) → LastIsYoungest c w.rows
  | _ => True

namespace World

variable {p : Point}

theorem Inv.writeLedger (h : Inv w) (hcall : w.calls i = some p) : Inv (w.writeLedger i p) := by
  have hkey : w.key i = p.key? := by
    rw [key, hcall]
    rfl
  have hbegan : w.began i = p.began? := by
    rw [World.began, hcall]
    rfl
  unfold World.writeLedger
  split
  · rename_i name rest start
    split
    · exact h
    · rename_i hlock
      split
      · exact h.free rfl (fun t ht => by cases ht) fun q hq => by cases hq
      · rename_i hfresh
        exact h.lock hlock hkey rfl (fun t ht => hbegan.trans ht) (not_or.mp hfresh).1
  · rename_i name left
    split
    · rename_i row hfind
      have hname : row.name = name := by simpa using List.find?_some hfind
      refine h.move hkey rfl (fun t ht => by cases ht) fun q hq => ?_
      exact Option.mem_some_iff.mp hq ▸ hname
    · exact h.quiet hkey fun q hq => Option.mem_some_iff.mp hq ▸ ⟨rfl, rfl, fun _ => trivial⟩
  · rename_i name left row
    split
    · rename_i hrow
      split
      · exact h
      · rename_i hlock
        exact h.lock hlock hkey rfl (fun t ht => by cases ht) ⟨hrow, h.fits i _ hcall⟩
    · exact h.quiet hkey fun q hq => Option.mem_some_iff.mp hq ▸ ⟨rfl, rfl, fun _ => trivial⟩
  · exact h

theorem Inv.commit (h : Inv w) (hcall : w.calls i = some p) {answered : Bool}
    (hmet : Met c w (i, .commit answered)) : Inv (w.commit i answered p) := by
  unfold World.commit
  split
  · refine h.commitUp hcall fun q hq => ?_
    split at hq
    · exact quiet_applyNext _ q hq
    · cases hq
  · rename_i name left deleted
    obtain ⟨row, rfl, -⟩ := hmet name left deleted hcall
    refine h.commitDown hcall fun q hq => ?_
    split at hq
    · exact quiet_first _ q hq
    · cases hq
  · exact h

theorem step_of_call (hcall : w.calls i = some p) (move : Move) :
    w.step c (i, move) = w.stepAt c i p move := by
  simp only [World.step, hcall]

/-- A step that meets the condition keeps the invariant. -/
theorem Inv.stepAt (h : Inv w) (hcall : w.calls i = some p) {move : Move}
    (hmet : Met c w (i, move)) : Inv (w.stepAt c i p move) := by
  have hkey : w.key i = p.key? := by
    rw [key, hcall]
    rfl
  have hbegan : w.began i = p.began? := by
    rw [World.began, hcall]
    rfl
  unfold World.stepAt
  split
  · exact h.create.quiet hkey fun q hq => Option.mem_some_iff.mp hq ▸ quiet_reading _
  · refine h.quiet hkey fun q hq => ?_
    split at hq
    · exact quiet_afterRead _ _ _ q hq
    · cases hq
  · exact h.openUp hkey _
  · exact h.tick.quiet hkey fun q hq => Option.mem_some_iff.mp hq ▸ ⟨rfl, rfl, fun _ => trivial⟩
  · refine h.move hkey rfl (fun t ht => hbegan.trans ht) fun q hq => ?_
    exact Option.mem_some_iff.mp hq ▸ trivial
  · exact h.quiet hkey fun q hq => Option.mem_some_iff.mp hq ▸ ⟨rfl, rfl, fun _ => trivial⟩
  · exact h.writeLedger hcall
  · exact h.commit hcall hmet
  · exact h.free rfl (fun t ht => by cases ht) fun q hq => by cases hq
  · exact h

theorem Inv.step (h : Inv w) {a : ℕ × Move} (hmet : Met c w a) : Inv (w.step c a) := by
  obtain ⟨i, move⟩ := a
  cases hcall : w.calls i with
  | none =>
    have hkey : w.key i = none := by
      rw [key, hcall]
      rfl
    simp only [World.step, hcall]
    split
    · exact h.quiet hkey (quiet_first _)
    · exact h
    · rename_i heq
      cases heq
  | some p => exact step_of_call hcall move ▸ h.stepAt hcall hmet

end World

/-! ## The last migration, by name and by time -/

section Sorted

variable {α : Type*} {r : α → α → Prop} [DecidableRel r] [Std.Total r] [IsTrans α r]
variable {l : List α} {a : α}

theorem head?_insertionSort (h : (l.insertionSort r).head? = some a) : a ∈ l ∧ ∀ b ∈ l, r a b := by
  obtain ⟨rest, hrest⟩ := List.head?_eq_some_iff.mp h
  have hsorted := List.pairwise_insertionSort r l
  rw [hrest, List.pairwise_cons] at hsorted
  have hmem {b : α} : b ∈ l ↔ b = a ∨ b ∈ rest := by
    rw [← List.mem_insertionSort r, hrest, List.mem_cons]
  refine ⟨hmem.mpr (.inl rfl), fun b hb => ?_⟩
  rcases hmem.mp hb with rfl | hb
  · exact (Std.Total.total b b).elim id id
  · exact hsorted.1 b hb

theorem getLast?_insertionSort (h : (l.insertionSort r).getLast? = some a) :
    a ∈ l ∧ ∀ b ∈ l, r b a := by
  obtain ⟨front, hfront⟩ := List.getLast?_eq_some_iff.mp h
  have hsorted := List.pairwise_insertionSort r l
  rw [hfront, List.pairwise_append] at hsorted
  have hmem {b : α} : b ∈ l ↔ b ∈ front ∨ b = a := by
    rw [← List.mem_insertionSort r, hfront, List.mem_append, List.mem_singleton]
  refine ⟨hmem.mpr (.inr rfl), fun b hb => ?_⟩
  rcases hmem.mp hb with hb | rfl
  · exact hsorted.2.2 b hb a List.mem_cons_self
  · exact (Std.Total.total b b).elim id id

end Sorted

theorem getAppliedMigrations_getLast? (h : (getAppliedMigrations c rows).getLast? = some name) :
    ∃ row ∈ rows, row.name = name ∧ ∀ r ∈ rows, c.le r.name row.name = true := by
  have : Std.Total fun a b => c.le a b = true := ⟨c.le_total⟩
  have : IsTrans String fun a b => c.le a b = true := ⟨c.le_trans⟩
  obtain ⟨hmem, hlast⟩ := getLast?_insertionSort h
  obtain ⟨row, hrow, rfl⟩ := List.mem_map.mp hmem
  exact ⟨row, hrow, rfl, fun r hr => hlast r.name (List.mem_map_of_mem hr)⟩

theorem mostRecent_of_getLast (h : getLastAppliedMigration rows = some name) :
    MostRecent rows name := by
  have : Std.Total fun a b : Row => b.appliedAt ≤ a.appliedAt := ⟨fun a b => le_total _ _⟩
  have : IsTrans Row fun a b => b.appliedAt ≤ a.appliedAt := ⟨fun a b d hab hbd => hbd.trans hab⟩
  obtain ⟨row, hrow, rfl⟩ := Option.map_eq_some_iff.mp h
  obtain ⟨hmem, hfirst⟩ := head?_insertionSort hrow
  exact ⟨row, hmem, rfl, hfirst⟩

/-- With distinct names and times, the two ways to find the last migration agree exactly if the last
name is in the youngest row. -/
theorem last_eq_iff (hnames : (rows.map Row.name).Nodup) (htimes : (rows.map Row.appliedAt).Nodup) :
    (getAppliedMigrations c rows).getLast? = getLastAppliedMigration rows ↔
      LastIsYoungest c rows := by
  cases hname : (getAppliedMigrations c rows).getLast? with
  | none =>
    have hnil : rows = [] := by
      rw [List.getLast?_eq_none_iff, getAppliedMigrations, ← List.length_eq_zero_iff,
        List.length_insertionSort, List.length_map, List.length_eq_zero_iff] at hname
      exact hname
    subst hnil
    exact iff_of_true rfl fun row hrow => by cases hrow
  | some last =>
    obtain ⟨top, htop, rfl, hle⟩ := getAppliedMigrations_getLast? hname
    constructor
    · intro heq row hrow hlast
      obtain ⟨young, hyoung, hnamed, hage⟩ := mostRecent_of_getLast heq.symm
      have hrow_top : row = top := List.inj_on_of_nodup_map hnames hrow htop
        (c.le_antisymm _ _ (hle row hrow) (hlast top htop))
      have hyoung_top : young = top := List.inj_on_of_nodup_map hnames hyoung htop hnamed
      rw [hrow_top, ← hyoung_top]
      exact hage
    · intro hlast
      cases hyoung : getLastAppliedMigration rows with
      | none =>
        have hnil : rows.insertionSort (fun a b => b.appliedAt ≤ a.appliedAt) = [] := by
          simpa [getLastAppliedMigration] using hyoung
        have := (List.mem_insertionSort fun a b : Row => b.appliedAt ≤ a.appliedAt).mpr htop
        rw [hnil] at this
        cases this
      | some name =>
        obtain ⟨young, hmem, rfl, hage⟩ := mostRecent_of_getLast hyoung
        have htime := le_antisymm (hage top htop) (hlast top htop hle young hmem)
        rw [List.inj_on_of_nodup_map htimes htop hmem htime]

/-! ## When a step is sound -/

/-- A committed rollback that has deleted nothing leaves a row whose last execution is `down`. -/
theorem not_kept_of_deletedNone {left : ℕ} {answered : Bool} (hmem : name ∈ w.rows.map Row.name)
    (hcall : w.calls i = some (.rollingBack name left (.deleted none))) :
    ¬ (w.step c (i, .commit answered)).Kept := by
  intro hkept
  rw [World.step_of_call hcall] at hkept
  have hlast := (hkept name).2.2.mp hmem
  have hexecuted : ((w.record w.rows name .down).executions name).getLast? = some .up := hlast
  rw [World.executions_record, if_pos rfl, List.getLast?_concat] at hexecuted
  cases hexecuted

theorem undone_eq_some : w.undone a = some name ↔
    ∃ answered left deleted, a.2 = .commit answered ∧
      w.calls a.1 = some (.rollingBack name left (.deleted deleted)) := by
  obtain ⟨i, move⟩ := a
  unfold World.undone
  split
  · rename_i i' answered heq
    obtain ⟨rfl, rfl⟩ := Prod.mk.inj heq
    split
    · rename_i name' left deleted hcall
      rw [hcall]
      simp
    · rename_i hnone
      refine iff_of_false (by simp) ?_
      rintro ⟨_, left, deleted, -, hcall⟩
      exact hnone name left deleted hcall
  · rename_i hnot
    refine iff_of_false (by simp) ?_
    rintro ⟨answered, left, deleted, rfl, -⟩
    exact hnot i answered rfl

theorem answer_eq_some {status : MigrationStatus} : w.answer c a = some status ↔
    ∃ dir, a.2 = .read dir ∧ w.created = true ∧ w.calls a.1 = some (.reading .status) ∧
      .of (loadMigrationFiles dir) (getAppliedMigrations c w.rows) = status := by
  obtain ⟨i, move⟩ := a
  unfold World.answer
  split
  · rename_i i' dir heq
    obtain ⟨rfl, rfl⟩ := Prod.mk.inj heq
    split
    · rename_i hif
      rw [Bool.and_eq_true, beq_iff_eq] at hif
      simp [hif.1, hif.2]
    · rename_i hif
      rw [Bool.and_eq_true, beq_iff_eq] at hif
      refine iff_of_false (by simp) ?_
      rintro ⟨_, -, hcreated, hcall, -⟩
      exact hif ⟨hcreated, hcall⟩
  · rename_i hnot
    refine iff_of_false (by simp) ?_
    rintro ⟨dir, rfl, -⟩
    exact hnot i dir rfl

theorem Met.of_sound (h : w.Inv) (hs : Sound c w a) : Met c w a := by
  obtain ⟨i, move⟩ := a
  cases move with
  | commit answered =>
    intro name left deleted hcall
    obtain ⟨young, hyoung, hname, hage⟩ :=
      hs.undone name (undone_eq_some.mpr ⟨answered, left, deleted, rfl, hcall⟩)
    cases deleted with
    | none =>
      have hmem : name ∈ w.rows.map Row.name := hname ▸ List.mem_map_of_mem hyoung
      exact absurd hs.kept (not_kept_of_deletedNone hmem hcall)
    | some row =>
      obtain ⟨hrow, hrowName⟩ : row ∈ w.rows ∧ row.name = name := h.fits i _ hcall
      obtain rfl := List.inj_on_of_nodup_map h.names hrow hyoung (hrowName.trans hname.symm)
      exact ⟨row, rfl, hage⟩
  | read dir =>
    intro hcreated hcall
    have hlast := hs.answered _ (answer_eq_some.mpr ⟨dir, rfl, hcreated, hcall, rfl⟩)
    exact (last_eq_iff h.names h.times).mp hlast
  | _ => trivial

theorem Sound.of_met (h : w.Inv) (hmet : Met c w a) : Sound c w a where
  kept := (h.step hmet).kept
  undone name hundone := by
    obtain ⟨i, move⟩ := a
    obtain ⟨answered, left, deleted, rfl, hcall⟩ := undone_eq_some.mp hundone
    obtain ⟨row, rfl, hage⟩ := hmet name left deleted hcall
    obtain ⟨hrow, hname⟩ : row ∈ w.rows ∧ row.name = name := h.fits i _ hcall
    exact ⟨row, hrow, hname, hage⟩
  answered status hstatus := by
    obtain ⟨i, move⟩ := a
    obtain ⟨dir, rfl, hcreated, hcall, rfl⟩ := answer_eq_some.mp hstatus
    exact (last_eq_iff h.names h.times).mpr (hmet hcreated hcall)

/-- In every run the executions of each migration alternate, each rollback undoes the migration most
recently applied and each `status` names the one a rollback would take, exactly if each rollback that
commits has deleted the youngest row and each `status` finds the last name in the youngest row. -/
theorem alternates_iff (c : Collation) (as : List (ℕ × Move)) :
    World.new.Kept ∧ Machine.Along (World.step c) (Sound c) .new as ↔
      Machine.Along (World.step c) (Met c) .new as := by
  rw [and_iff_right World.kept_new]
  exact Machine.along_iff_of_invariant (World.step c) (fun _ _ h hmet => h.step hmet)
    (fun _ _ h => ⟨Met.of_sound h, Sound.of_met h⟩) World.inv_new

/-! ### Two rollbacks of one migration -/

theorem kept_run {as : List (ℕ × Move)} (h : w.Kept)
    (hs : Machine.Along (World.step c) (Sound c) w as) : (Machine.run (World.step c) w as).Kept :=
  Machine.invariant_along (World.step c) (fun _ _ _ hsound => hsound.kept) h hs

/-- A migration is applied, and two rollbacks read that it is the last one before either deletes its
row. -/
def twoRollbacks : List (ℕ × Move) :=
  let dir := ["1.up.sql", "1.down.sql"]
  [(0, .call .migrate), (0, .createMigrationsTable), (0, .read dir), (0, .openTx), (0, .execute),
    (0, .writeLedger), (0, .commit true),
    (1, .call .rollback), (1, .createMigrationsTable), (1, .read dir),
    (2, .call .rollback), (2, .createMigrationsTable), (2, .read dir),
    (1, .openTx), (1, .execute), (1, .writeLedger), (1, .writeLedger), (1, .commit true),
    (2, .openTx), (2, .execute), (2, .writeLedger), (2, .commit true)]

/-- The second rollback deletes nothing and commits its script all the same. -/
theorem not_alternates :
    ¬ ∀ (c : Collation) (as : List (ℕ × Move)),
      World.new.Kept ∧ Machine.Along (World.step c) (Sound c) .new as := by
  intro h
  obtain ⟨hnew, hsound⟩ := h .bytes twoRollbacks
  have hchain := (kept_run hnew hsound "1").1
  have hexecuted : (Machine.run (World.step .bytes) .new twoRollbacks).executions "1" =
      [.up, .down, .down] := by
    decide +kernel
  rw [hexecuted] at hchain
  exact absurd hchain (by decide)

end Backbone.Orm.Migrations
