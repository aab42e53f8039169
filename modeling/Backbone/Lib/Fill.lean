import Mathlib.Data.List.Infix
import Mathlib.Data.List.TakeWhile

/-!
# Filling the holes of a template one after the other

A template is text with numbered holes. Each hole is written as a mark, the sigil and a name, and the
holes are filled by replacing the first place where the mark of 1 stands, then that of 2, and so on.
What has been filled in, and a mark that begins with another one, can be taken for a hole. The loop
fills hole after hole as it should (`stage`) exactly when every hole stands at most once and no text
in front of it reads as its mark, `filled_eq_stage_iff`. Where the filled template contains no mark
and every hole stands, the text the loop ends with is right only then, `ready_of_filled_eq`.
-/

namespace Backbone.Fill

variable {α : Type*} {w : List α} {new : List α} {old p u v : List α}

/-! ## Replacing the first occurrence -/

/-- `new` in the place of the first `old`. -/
def replaceFirst [DecidableEq α] (old new : List α) : List α → List α
  | [] => []
  | c :: cs =>
    if old.isPrefixOf (c :: cs) then new ++ (c :: cs).drop old.length
    else c :: replaceFirst old new cs

theorem replaceFirst_of_absent [DecidableEq α] (h : ¬ old <:+: w) : replaceFirst old new w = w := by
  induction w with
  | nil => rfl
  | cons c cs ih =>
    rw [List.infix_cons_iff, not_or] at h
    rw [replaceFirst, if_neg (by simpa using h.1), ih h.2]

/-- Two texts that begin with the same letter, and contain it nowhere else, start at the same place or
stand apart. -/
theorem align {s : α} {q a b : List α} (hp : s ∉ p) (hq : s ∉ q)
    (h : a ++ s :: (p ++ b) = u ++ s :: (q ++ v)) :
    a = u ∧ p ++ b = q ++ v ∨ (∃ y, u = a ++ s :: (p ++ y) ∧ b = y ++ s :: (q ++ v)) ∨
      ∃ y, a = u ++ s :: (q ++ y) ∧ v = y ++ s :: (p ++ b) := by
  -- Behind `p` comes the `s` of the other text, and `p` itself has none.
  have key {p b x q v : List α} (hp : s ∉ p) (h : p ++ b = x ++ s :: (q ++ v)) :
      ∃ y, x = p ++ y ∧ b = y ++ s :: (q ++ v) := by
    rcases List.append_eq_append_iff.mp h with ⟨y, hx, hb⟩ | ⟨y, hpx, hb⟩
    · exact ⟨y, hx, hb⟩
    · cases y with
      | nil => exact ⟨[], by simpa using hpx.symm, by simpa using hb.symm⟩
      | cons c y =>
        obtain ⟨rfl, -⟩ := List.cons.inj hb
        exact absurd (hpx ▸ List.mem_append_right x List.mem_cons_self) hp
  rcases List.append_eq_append_iff.mp h with ⟨x, hu, hx⟩ | ⟨x, ha, hx⟩
  · cases x with
    | nil =>
      refine .inl ⟨by simpa using hu.symm, ?_⟩
      simpa using hx
    | cons c x =>
      obtain ⟨rfl, hrest⟩ := List.cons.inj hx
      obtain ⟨y, rfl, hb⟩ := key hp hrest
      exact .inr (.inl ⟨y, hu, hb⟩)
  · cases x with
    | nil =>
      refine .inl ⟨by simpa using ha, ?_⟩
      simpa using hx.symm
    | cons c x =>
      obtain ⟨rfl, hrest⟩ := List.cons.inj hx
      obtain ⟨y, rfl, hv⟩ := key hq hrest
      exact .inr (.inr ⟨y, ha, hv⟩)

/-- What is replaced is the occurrence no other one stands before. -/
theorem replaceFirst_of_present [DecidableEq α] (h : old <:+: w) (hne : old ≠ []) :
    ∃ a b, w = a ++ (old ++ b) ∧ ¬ old <:+: a ∧ replaceFirst old new w = a ++ (new ++ b) := by
  induction w with
  | nil => exact absurd (List.infix_nil.mp h) hne
  | cons c cs ih =>
    by_cases hpre : old <+: c :: cs
    · obtain ⟨b, hb⟩ := hpre
      refine ⟨[], b, hb.symm, fun h => hne (List.infix_nil.mp h), ?_⟩
      rw [replaceFirst, if_pos (by simp [← hb]), ← hb]
      simp
    · have hin : old <:+: cs := (List.infix_cons_iff.mp h).resolve_left hpre
      obtain ⟨a, b, rfl, hno, hrep⟩ := ih hin
      refine ⟨c :: a, b, rfl, fun hinf => ?_, ?_⟩
      · rcases List.infix_cons_iff.mp hinf with hp | hp
        · exact hpre (hp.trans ⟨old ++ b, rfl⟩)
        · exact hno hp
      · rw [replaceFirst, if_neg (by simpa using hpre), hrep]
        rfl

/-- A text whose first letter is none of the others, behind a text without it. -/
theorem replaceFirst_append [DecidableEq α] {s : α} (hs : s ∉ p)
    (h : ¬ (s :: p) <:+: u) :
    replaceFirst (s :: p) new (u ++ s :: (p ++ v)) = u ++ (new ++ v) := by
  have hin : (s :: p) <:+: u ++ s :: (p ++ v) := ⟨u, v, by simp⟩
  obtain ⟨a, b, hw, hno, hrep⟩ : ∃ a b, u ++ s :: (p ++ v) = a ++ (s :: p ++ b) ∧
      ¬ (s :: p) <:+: a ∧ replaceFirst (s :: p) new (u ++ s :: (p ++ v)) = a ++ (new ++ b) :=
    replaceFirst_of_present hin (by simp)
  rw [hrep]
  rcases align hs hs hw with ⟨rfl, hb⟩ | ⟨y, hu, -⟩ | ⟨y, ha, -⟩
  · rw [List.append_cancel_left hb]
  · exact absurd ⟨u, y, by simp [hu]⟩ hno
  · exact absurd ⟨a, y, by simp [ha]⟩ h

/-! ## Templates -/

/-- How a hole is written: a letter, and a name for its number without that letter. -/
structure Marks (α : Type*) where
  sigil : α
  name : ℕ → List α
  sigil_not_mem : ∀ k, sigil ∉ name k

/-- The mark of a hole. -/
def Marks.mark (m : Marks α) (k : ℕ) : List α := m.sigil :: m.name k

/-- A part of a template. -/
inductive Piece (α : Type*) where
  | text (cs : List α)
  | hole (k : ℕ)
deriving DecidableEq, Repr

section Template

variable (m : Marks α) (fill : ℕ → List α)

/-- A part when the holes from 1 to `n` are filled and the others are marks. -/
def Piece.at (n : ℕ) : Piece α → List α
  | .text cs => cs
  | .hole k => if 1 ≤ k ∧ k ≤ n then fill k else m.mark k

/-- The template when the holes from 1 to `n` are filled. -/
def stage (n : ℕ) (t : List (Piece α)) : List α := t.flatMap (Piece.at m fill n)

/-- The first mark of 1 replaced, then the first mark of 2, and so on to `n`. -/
def filled [DecidableEq α] : ℕ → List α → List α
  | 0, w => w
  | n + 1, w => replaceFirst (m.mark (n + 1)) (fill (n + 1)) (filled n w)

/-- What stands in front of a hole. -/
def before [DecidableEq α] (k : ℕ) (t : List (Piece α)) : List (Piece α) := t.takeWhile (· != .hole k)

/-- Hole `k + 1` stands at most once, and its mark is not read in front of it. -/
def Ready [DecidableEq α] (k : ℕ) (t : List (Piece α)) : Prop :=
  t.count (.hole (k + 1)) ≤ 1 ∧ ¬ m.mark (k + 1) <:+: stage m fill k (before (k + 1) t)

instance [DecidableEq α] (k : ℕ) (t : List (Piece α)) : Decidable (Ready m fill k t) :=
  inferInstanceAs (Decidable (_ ∧ _))

end Template

variable {m : Marks α} {fill : ℕ → List α} (n : ℕ)

theorem stage_append (t u : List (Piece α)) :
    stage m fill n (t ++ u) = stage m fill n t ++ stage m fill n u :=
  List.flatMap_append

theorem stage_cons (x : Piece α) (t : List (Piece α)) :
    stage m fill n (x :: t) = x.at m fill n ++ stage m fill n t :=
  List.flatMap_cons

/-- The next hole, before it is filled. -/
theorem at_mark : (Piece.hole (n + 1)).at m fill n = m.mark (n + 1) :=
  if_neg (by omega)

/-- The next hole, when it is filled. -/
theorem at_fill : (Piece.hole (n + 1)).at m fill (n + 1) = fill (n + 1) := by
  simp [Piece.at]

variable {t : List (Piece α)} {k : ℕ}

/-- Filling a hole changes nothing else. -/
theorem stage_succ_of_not_mem {n : ℕ} (h : .hole (n + 1) ∉ t) :
    stage m fill (n + 1) t = stage m fill n t := by
  induction t with
  | nil => rfl
  | cons x t ih =>
    rw [List.mem_cons, not_or] at h
    rw [stage_cons, stage_cons, ih h.2]
    congr 1
    cases x with
    | text cs => rfl
    | hole k =>
      have hk : k ≠ n + 1 := fun hk => h.1 (by rw [hk])
      have hiff : (1 ≤ k ∧ k ≤ n + 1) ↔ (1 ≤ k ∧ k ≤ n) := by omega
      simp only [Piece.at, hiff]

theorem not_mem_before [DecidableEq α] (k : ℕ) (t : List (Piece α)) : .hole k ∉ before k t := by
  intro h
  simpa using List.mem_takeWhile_imp h

/-- A template is what stands in front of a hole, and the hole with the rest unless it has none. -/
theorem eq_before [DecidableEq α] (k : ℕ) (t : List (Piece α)) :
    (.hole k ∉ t ∧ before k t = t) ∨ ∃ rest, t = before k t ++ .hole k :: rest := by
  have hsplit := List.takeWhile_append_dropWhile (p := (· != Piece.hole k)) (l := t)
  cases hdrop : t.dropWhile (· != Piece.hole k) with
  | nil =>
    rw [hdrop, List.append_nil] at hsplit
    refine .inl ⟨?_, hsplit⟩
    rw [← hsplit]
    exact not_mem_before k t
  | cons x rest =>
    have hx : ¬ (x != Piece.hole k) = true := by
      have := List.head_dropWhile_not (· != Piece.hole k) (l := t) (by simp [hdrop])
      simpa [hdrop] using this
    obtain rfl : x = .hole k := by simpa using hx
    exact .inr ⟨rest, by rw [before, ← hdrop, hsplit]⟩

section Step

variable [DecidableEq α] (hfill : ∀ k, ∃ c cs, fill k = c :: cs ∧ c ≠ m.sigil)
include hfill

omit [DecidableEq α] in
/-- What fills a hole is no mark, whatever follows. -/
theorem fill_append_ne (k : ℕ) (u v : List α) : fill k ++ u ≠ m.sigil :: v := by
  obtain ⟨c, cs, hk, hc⟩ := hfill k
  intro h
  rw [hk] at h
  exact hc (List.cons.inj h).1

/-- A hole that is filled later does not look the same. -/
theorem stage_ne_of_mem {k : ℕ} {t : List (Piece α)} (h : .hole (k + 1) ∈ t) :
    stage m fill k t ≠ stage m fill (k + 1) t := by
  rcases eq_before (k + 1) t with ⟨hnone, -⟩ | ⟨rest, ht⟩
  · exact absurd h hnone
  · intro hsame
    rw [ht, stage_append, stage_append, stage_succ_of_not_mem (not_mem_before _ t), stage_cons,
      stage_cons, at_mark, at_fill] at hsame
    exact fill_append_ne hfill _ _ _ (List.append_cancel_left hsame).symm

/-- The mark is not read in a text that the step leaves alone. -/
theorem not_infix_of_replaceFirst {k : ℕ} {u v : List α}
    (h : replaceFirst (m.mark k) (fill k) (u ++ v) = u ++ w) : ¬ m.mark k <:+: u := by
  rintro ⟨a', b', hu⟩
  have hin : m.mark k <:+: u ++ v := ⟨a', b' ++ v, by simp [← hu]⟩
  obtain ⟨a, b, hw, hno, hrep⟩ : ∃ a b, u ++ v = a ++ (m.mark k ++ b) ∧ ¬ m.mark k <:+: a ∧
      replaceFirst (m.mark k) (fill k) (u ++ v) = a ++ (fill k ++ b) :=
    replaceFirst_of_present hin (by simp [Marks.mark])
  have hplaces : a ++ m.sigil :: (m.name k ++ b) = a' ++ m.sigil :: (m.name k ++ (b' ++ v)) := by
    rw [← List.cons_append, ← List.cons_append]
    change a ++ (m.mark k ++ b) = a' ++ (m.mark k ++ (b' ++ v))
    rw [← hw, ← hu]
    simp
  -- The first occurrence ends in `u`, so that what fills it would begin as the mark does.
  have hfirst : ∃ y, u = a ++ m.sigil :: y := by
    rcases align (m.sigil_not_mem k) (m.sigil_not_mem k) hplaces with
      ⟨rfl, -⟩ | ⟨y, ha', -⟩ | ⟨y, ha, -⟩
    · exact ⟨m.name k ++ b', by rw [← hu]; simp [Marks.mark]⟩
    · exact ⟨m.name k ++ y ++ (m.mark k ++ b'), by rw [← hu, ha']; simp⟩
    · exact absurd ⟨a', y, by simp [ha, Marks.mark]⟩ hno
  obtain ⟨y, hy⟩ := hfirst
  rw [h, hy, List.append_assoc, List.cons_append] at hrep
  exact fill_append_ne hfill _ _ _ (List.append_cancel_left hrep).symm

/-- One step of the loop fills the hole, everywhere and nothing else, when the hole is ready. -/
theorem replaceFirst_stage_iff (k : ℕ) (t : List (Piece α)) :
    replaceFirst (m.mark (k + 1)) (fill (k + 1)) (stage m fill k t) = stage m fill (k + 1) t ↔
      Ready m fill k t := by
  have hsigil := m.sigil_not_mem (k + 1)
  rcases eq_before (k + 1) t with ⟨hnone, heq⟩ | ⟨rest, ht⟩
  · rw [Ready, heq, List.count_eq_zero.mpr hnone, stage_succ_of_not_mem hnone]
    constructor
    · intro hstep
      have hself : replaceFirst (m.mark (k + 1)) (fill (k + 1)) (stage m fill k t ++ []) =
          stage m fill k t ++ [] := by simpa using hstep
      exact ⟨Nat.zero_le 1, not_infix_of_replaceFirst hfill hself⟩
    · rintro ⟨-, hno⟩
      exact replaceFirst_of_absent hno
  · have hcount : t.count (.hole (k + 1)) = rest.count (.hole (k + 1)) + 1 := by
      have hzero : (before (k + 1) t).count (.hole (k + 1)) = 0 :=
        List.count_eq_zero.mpr (not_mem_before _ t)
      conv_lhs => rw [ht]
      rw [List.count_append, hzero, List.count_cons_self, Nat.zero_add]
    have hbefore : stage m fill k t = stage m fill k (before (k + 1) t) ++
        (m.mark (k + 1) ++ stage m fill k rest) := by
      conv_lhs => rw [ht]
      rw [stage_append, stage_cons, at_mark]
    have hafter : stage m fill (k + 1) t = stage m fill k (before (k + 1) t) ++
        (fill (k + 1) ++ stage m fill (k + 1) rest) := by
      conv_lhs => rw [ht]
      rw [stage_append, stage_cons, at_fill, stage_succ_of_not_mem (not_mem_before _ t)]
    rw [Ready, hcount, hbefore, hafter]
    constructor
    · intro hstep
      have hno := not_infix_of_replaceFirst hfill hstep
      refine ⟨?_, hno⟩
      have hrep : replaceFirst (m.mark (k + 1)) (fill (k + 1))
          (stage m fill k (before (k + 1) t) ++ (m.mark (k + 1) ++ stage m fill k rest)) =
          stage m fill k (before (k + 1) t) ++ (fill (k + 1) ++ stage m fill k rest) :=
        replaceFirst_append hsigil hno
      have hrest : .hole (k + 1) ∉ rest := by
        intro hmem
        have hsame := List.append_cancel_left (hrep.symm.trans hstep)
        exact stage_ne_of_mem hfill hmem (List.append_cancel_left hsame)
      rw [List.count_eq_zero.mpr hrest]
    · rintro ⟨honce, hno⟩
      have hrest : .hole (k + 1) ∉ rest := List.count_eq_zero.mp (by omega)
      rw [stage_succ_of_not_mem hrest]
      exact replaceFirst_append hsigil hno

/-- The loop fills hole after hole, each everywhere and nothing else, when every hole is ready in its
turn. -/
theorem filled_eq_stage_iff (n : ℕ) (t : List (Piece α)) :
    (∀ k ≤ n, filled m fill k (stage m fill 0 t) = stage m fill k t) ↔
      ∀ k < n, Ready m fill k t := by
  constructor
  · intro h k hk
    rw [← replaceFirst_stage_iff hfill, ← h k (Nat.le_of_lt hk)]
    exact h (k + 1) hk
  · intro h k hk
    induction k with
    | zero => rfl
    | succ k ih =>
      rw [filled, ih (Nat.le_of_succ_le hk)]
      exact (replaceFirst_stage_iff hfill k t).mpr (h k hk)

end Step

/-! ## Holes that are left over -/

/-- A letter that belongs to no mark. -/
def Stops (m : Marks α) (c : α) : Prop := c ≠ m.sigil ∧ ∀ k, c ∉ m.name k

/-- A text that ends, or begins with a letter that belongs to no mark. -/
def Apart (m : Marks α) (w : List α) : Prop := ∀ c ∈ w.head?, Stops m c

/-- A mark stands in the text, and no longer mark can be read there. -/
def Intact (m : Marks α) (k : ℕ) (w : List α) : Prop :=
  ∃ u v, w = u ++ (m.mark k ++ v) ∧ Apart m v

/-- Every hole of the template ends, or text follows that belongs to no mark. -/
def Spaced (m : Marks α) (t : List (Piece α)) : Prop :=
  ∀ u k v, t = u ++ .hole k :: v → v = [] ∨ ∃ c cs w, v = .text (c :: cs) :: w ∧ Stops m c

theorem Intact.mark_mem (h : Intact m k w) : m.mark k <:+: w := by
  obtain ⟨u, v, rfl, -⟩ := h
  exact ⟨u, v, by simp⟩

section Left

variable [DecidableEq α] (hname : ∀ j k, m.name j <+: m.name k → j ≤ k)
include hname

/-- A later step leaves the mark of an earlier hole alone. -/
theorem Intact.replaceFirst {j k : ℕ} (hjk : j < k) (h : Intact m j w) :
    Intact m j (replaceFirst (m.mark k) (fill k) w) := by
  obtain ⟨u, v, rfl, hv⟩ := h
  by_cases hin : m.mark k <:+: u ++ (m.mark j ++ v)
  · obtain ⟨a, b, hw, -, hrep⟩ : ∃ a b, u ++ (m.mark j ++ v) = a ++ (m.mark k ++ b) ∧
        ¬ m.mark k <:+: a ∧
        Fill.replaceFirst (m.mark k) (fill k) (u ++ (m.mark j ++ v)) = a ++ (fill k ++ b) :=
      replaceFirst_of_present hin (by simp [Marks.mark])
    rw [hrep]
    rcases align (m.sigil_not_mem j) (m.sigil_not_mem k) hw with
      ⟨-, hsame⟩ | ⟨y, rfl, rfl⟩ | ⟨y, rfl, rfl⟩
    · -- The longer name would need a letter of what follows.
      exfalso
      rcases List.append_eq_append_iff.mp hsame with ⟨x, hx, hvx⟩ | ⟨x, hx, -⟩
      · cases x with
        | nil => exact absurd (hname k j ⟨[], by simpa using hx⟩) (by omega)
        | cons c x =>
          have hc : Stops m c := hv c (by simp [hvx])
          exact hc.2 k (by simp [hx])
      · exact absurd (hname k j ⟨x, hx.symm⟩) (by omega)
    · -- The mark that is replaced stands behind the one that stays.
      cases y with
      | nil => exact absurd rfl (hv m.sigil (by simp)).1
      | cons c y =>
        refine ⟨u, c :: (y ++ (fill k ++ b)), by simp [Marks.mark], ?_⟩
        intro d hd
        exact hv d (by simpa using hd)
    · exact ⟨a ++ (fill k ++ y), v, by simp [Marks.mark], hv⟩
  · rw [replaceFirst_of_absent hin]
    exact ⟨u, v, rfl, hv⟩

/-- A mark that is left over stays to the end. -/
theorem Intact.filled {j k n : ℕ} (hjk : j ≤ k) (hkn : k ≤ n)
    (h : Intact m j (Fill.filled m fill k w)) : Intact m j (Fill.filled m fill n w) := by
  induction n, hkn using Nat.le_induction with
  | base => exact h
  | succ n hkn ih => exact ih.replaceFirst hname (by omega)

end Left

theorem Spaced.apart {u v : List (Piece α)} (h : Spaced m t) (ht : t = u ++ .hole k :: v)
    (n : ℕ) : Apart m (stage m fill n v) := by
  rcases h u k v ht with rfl | ⟨c, cs, w, rfl, hc⟩
  · simp [Apart, stage]
  · intro d hd
    obtain rfl : c = d := by simpa [stage, Piece.at] using hd
    exact hc

/-- A step whose hole is not ready leaves the mark of its hole standing. -/
theorem intact_of_not_ready [DecidableEq α] (hmem : .hole (k + 1) ∈ t)
    (hspaced : Spaced m t) (h : ¬ Ready m fill k t) :
    Intact m (k + 1) (replaceFirst (m.mark (k + 1)) (fill (k + 1)) (stage m fill k t)) := by
  have hsigil := m.sigil_not_mem (k + 1)
  rcases eq_before (k + 1) t with ⟨hnone, -⟩ | ⟨rest, ht⟩
  · exact absurd hmem hnone
  · have hstage : stage m fill k t = stage m fill k (before (k + 1) t) ++
        (m.mark (k + 1) ++ stage m fill k rest) := by
      conv_lhs => rw [ht]
      rw [stage_append, stage_cons, at_mark]
    have hrest : Apart m (stage m fill k rest) := hspaced.apart ht k
    rw [hstage]
    by_cases hin : m.mark (k + 1) <:+: stage m fill k (before (k + 1) t)
    · -- The mark is read in front of the hole, and replaced there.
      generalize stage m fill k (before (k + 1) t) = u at hin ⊢
      obtain ⟨a, b, hw, hno, hrep⟩ : ∃ a b, u ++ (m.mark (k + 1) ++ stage m fill k rest) =
          a ++ (m.mark (k + 1) ++ b) ∧ ¬ m.mark (k + 1) <:+: a ∧
          replaceFirst (m.mark (k + 1)) (fill (k + 1))
            (u ++ (m.mark (k + 1) ++ stage m fill k rest)) = a ++ (fill (k + 1) ++ b) :=
        replaceFirst_of_present ⟨u, stage m fill k rest, by simp⟩ (by simp [Marks.mark])
      rw [hrep]
      rcases align hsigil hsigil hw with ⟨rfl, -⟩ | ⟨y, rfl, -⟩ | ⟨y, rfl, rfl⟩
      · exact absurd hin hno
      · refine absurd (hin.trans ?_) hno
        exact ⟨[], m.sigil :: (m.name (k + 1) ++ y), by simp⟩
      · exact ⟨a ++ (fill (k + 1) ++ y), stage m fill k rest, by simp [Marks.mark], hrest⟩
    · -- The hole stands again behind the one that is filled.
      have hagain : .hole (k + 1) ∈ rest := by
        by_contra hno
        refine h ⟨?_, hin⟩
        conv_lhs => rw [ht]
        rw [List.count_append, List.count_cons_self, List.count_eq_zero.mpr hno,
          List.count_eq_zero.mpr (not_mem_before _ t)]
      obtain ⟨v, w, hvw⟩ := List.append_of_mem hagain
      have hw : Apart m (stage m fill k w) := by
        refine hspaced.apart (u := before (k + 1) t ++ .hole (k + 1) :: v) (k := k + 1) ?_ k
        conv_lhs => rw [ht, hvw]
        simp
      refine ⟨stage m fill k (before (k + 1) t) ++ (fill (k + 1) ++ stage m fill k v),
        stage m fill k w, ?_, hw⟩
      have hrep : replaceFirst (m.mark (k + 1)) (fill (k + 1))
          (stage m fill k (before (k + 1) t) ++ (m.mark (k + 1) ++ stage m fill k rest)) =
          stage m fill k (before (k + 1) t) ++ (fill (k + 1) ++ stage m fill k rest) :=
        replaceFirst_append hsigil hin
      rw [hrep, hvw, stage_append, stage_cons, at_mark]
      simp

/-- Where the filled template contains no mark, its text comes out of the loop only when every hole
was ready in its turn. -/
theorem ready_of_filled_eq [DecidableEq α] (hfill : ∀ k, ∃ c cs, fill k = c :: cs ∧ c ≠ m.sigil)
    (hname : ∀ j k, m.name j <+: m.name k → j ≤ k) {n : ℕ} (hspaced : Spaced m t)
    (hall : ∀ k < n, .hole (k + 1) ∈ t) (hclean : ∀ k < n, ¬ m.mark (k + 1) <:+: stage m fill n t)
    (h : filled m fill n (stage m fill 0 t) = stage m fill n t) : ∀ k < n, Ready m fill k t := by
  intro k
  induction k using Nat.strong_induction_on with
  | _ k ih =>
    intro hk
    by_contra hready
    have hsofar : filled m fill k (stage m fill 0 t) = stage m fill k t :=
      (filled_eq_stage_iff hfill k t).mpr (fun j hj => ih j hj (by omega)) k (Nat.le_refl k)
    have hleft : Intact m (k + 1) (filled m fill (k + 1) (stage m fill 0 t)) := by
      rw [filled, hsofar]
      exact intact_of_not_ready (hall k hk) hspaced hready
    have hend := (hleft.filled hname (Nat.le_refl _) hk).mark_mem
    rw [h] at hend
    exact hclean k hk hend

end Backbone.Fill
