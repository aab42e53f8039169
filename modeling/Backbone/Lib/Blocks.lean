import Mathlib.Data.List.Infix

/-!
# Texts with blocks

Two symbols open a block and the next closing symbol closes it; what stands between them is the
content of the block, whatever it is, and an opening that nothing closes opens no block. A text is
read from the left into single symbols and blocks, and `pass` puts a text in the place of each block.

`find` is the first place at which a word stands in a text.
-/

namespace Backbone.Blocks

variable {α : Type*} [DecidableEq α] {l word : List α} {content : List α} {x : α}
  {a : List α} {k : ℕ}

/-! ## The first place of a word -/

def find (word : List α) : List α → Option ℕ
  | [] => if word = [] then some 0 else none
  | x :: l => if word <+: x :: l then some 0 else (find word l).map (· + 1)

theorem find_eq_none (h : x ∉ l) : find (x :: word) l = none := by
  induction l with
  | nil => rfl
  | cons y l ih =>
    rw [List.mem_cons, not_or] at h
    rw [find, if_neg, ih h.2]
    · rfl
    · rintro ⟨rest, heq⟩
      exact h.1 (List.cons.inj heq).1

theorem find_append (h : x ∉ a) (l : List α) :
    find (x :: word) (a ++ l) = (find (x :: word) l).map (· + a.length) := by
  induction a with
  | nil => simp
  | cons y a ih =>
    rw [List.mem_cons, not_or] at h
    rw [List.cons_append, find, if_neg, ih h.2, Option.map_map]
    · rfl
    · rintro ⟨rest, heq⟩
      exact h.1 (List.cons.inj heq).1

theorem find_start (h : word <+: l) : find word l = some 0 := by
  cases l with
  | nil => exact if_pos (List.prefix_nil.mp h)
  | cons x l => exact if_pos h

theorem find_one_of_notMem (h : x ∉ l) : find [x] l = none := find_eq_none h

theorem find_one (h : x ∉ a) (l : List α) : find [x] (a ++ x :: l) = some a.length := by
  have hstart : find [x] (x :: l) = some 0 := find_start ⟨l, rfl⟩
  rw [find_append h, hstart, Option.map_some, Nat.zero_add]

/-- Where a word is found, it stands. -/
theorem eq_of_find (h : find word l = some k) : ∃ a b, l = a ++ (word ++ b) ∧ a.length = k := by
  induction l generalizing k with
  | nil =>
    rw [find] at h
    split at h
    · rename_i hword
      exact ⟨[], [], by simp [hword], Option.some.inj h⟩
    · cases h
  | cons x l ih =>
    rw [find] at h
    split at h
    · rename_i hword
      obtain ⟨b, hb⟩ := hword
      exact ⟨[], b, hb.symm, Option.some.inj h⟩
    · obtain ⟨k', hk', rfl⟩ := Option.map_eq_some_iff.mp h
      obtain ⟨a, b, rfl, rfl⟩ := ih hk'
      exact ⟨x :: a, b, rfl, rfl⟩

theorem length_of_find (h : find word l = some k) : k + word.length ≤ l.length := by
  obtain ⟨a, b, rfl, rfl⟩ := eq_of_find h
  simp only [List.length_append]
  omega

theorem not_infix_of_find (h : find word l = none) : ¬ word <:+: l := by
  induction l with
  | nil =>
    rw [List.infix_nil]
    intro hword
    simp [find, hword] at h
  | cons x l ih =>
    rw [find] at h
    split at h
    · cases h
    · rename_i hword
      rw [List.infix_cons_iff, not_or]
      exact ⟨hword, ih (Option.map_eq_none_iff.mp h)⟩

/-! ## Pieces -/

/-- What opens and closes a block. -/
structure Delims (α : Type*) where
  open₁ : α
  open₂ : α
  close : α

inductive Piece (α : Type*) where
  | symbol (x : α)
  | block (content : List α)
deriving DecidableEq, Repr

/-- What a piece becomes if `f` replaces the blocks. -/
def Piece.put (f : List α → List α) : Piece α → List α
  | .symbol x => [x]
  | .block content => f content

variable (d : Delims α)

def pieces : List α → List (Piece α)
  | [] => []
  | [x] => [.symbol x]
  | x :: y :: l =>
    if x = d.open₁ ∧ y = d.open₂ ∧ d.close ∈ l then
      .block (l.takeWhile (· ≠ d.close)) :: pieces (l.dropWhile (· ≠ d.close)).tail
    else .symbol x :: pieces (y :: l)
termination_by l => l.length
decreasing_by
  · have := (List.dropWhile_sublist (l := l) (· ≠ d.close)).length_le
    simp only [List.length_tail, List.length_cons]
    omega
  · simp

/-- Every block is replaced, and what replaces it is not read again. -/
def pass (f : List α → List α) (l : List α) : List α := (pieces d l).flatMap (Piece.put f)

/-- The text has no block at its start. -/
theorem pieces_cons (h : ¬ [d.open₁, d.open₂] <+: x :: l) :
    pieces d (x :: l) = .symbol x :: pieces d l := by
  cases l with
  | nil => rw [pieces, pieces]
  | cons y l =>
    rw [pieces, if_neg]
    rintro ⟨rfl, rfl, -⟩
    exact h ⟨l, rfl⟩

theorem pieces_unclosed (h : d.close ∉ l.tail) : pieces d (x :: l) = .symbol x :: pieces d l := by
  cases l with
  | nil => rw [pieces, pieces]
  | cons y l =>
    rw [pieces, if_neg]
    exact fun hblock => h hblock.2.2

theorem pieces_block (h : d.close ∉ content) (l : List α) :
    pieces d (d.open₁ :: d.open₂ :: (content ++ d.close :: l)) = .block content :: pieces d l := by
  have hcontent : ∀ x ∈ content, decide (x ≠ d.close) = true := by
    intro x hx
    rw [decide_eq_true_iff]
    rintro rfl
    exact h hx
  rw [pieces, if_pos ⟨rfl, rfl, by simp⟩, List.takeWhile_append_of_pos hcontent,
    List.dropWhile_append_of_pos hcontent, List.takeWhile_cons_of_neg (by simp),
    List.dropWhile_cons_of_neg (by simp), List.append_nil, List.tail_cons]

variable {d} {f g : List α → List α}

/-- Up to the first opening a text is kept. -/
theorem pass_of_find (h : find [d.open₁, d.open₂] l = some k) :
    ∃ a r, l = a ++ d.open₁ :: d.open₂ :: r ∧ a.length = k ∧
      pass d f l = a ++ pass d f (d.open₁ :: d.open₂ :: r) := by
  induction l generalizing k with
  | nil => cases h
  | cons x l ih =>
    rw [find] at h
    split at h
    · rename_i hopen
      obtain ⟨r, hr⟩ := hopen
      exact ⟨[], r, hr.symm, Option.some.inj h, by rw [← hr]; rfl⟩
    · rename_i hopen
      obtain ⟨k', hk', rfl⟩ := Option.map_eq_some_iff.mp h
      obtain ⟨a, r, hl, rfl, hpass⟩ := ih hk'
      refine ⟨x :: a, r, by rw [hl]; rfl, rfl, ?_⟩
      rw [pass, pieces_cons d hopen]
      exact congrArg (x :: ·) hpass

theorem pass_of_find_none (h : find [d.open₁, d.open₂] l = none) : pass d f l = l := by
  induction l with
  | nil => rw [pass, pieces, List.flatMap_nil]
  | cons x l ih =>
    rw [find] at h
    split at h
    · cases h
    · rename_i hopen
      rw [pass, pieces_cons d hopen]
      exact congrArg (x :: ·) (ih (Option.map_eq_none_iff.mp h))

/-- An opening that nothing closes is kept. -/
theorem pass_unclosed {r : List α} (h : d.close ∉ r) :
    pass d f (d.open₁ :: d.open₂ :: r) = d.open₁ :: d.open₂ :: pass d f r := by
  have hfirst : pieces d (d.open₁ :: d.open₂ :: r) = .symbol d.open₁ :: pieces d (d.open₂ :: r) :=
    pieces_unclosed d h
  have hsecond : pieces d (d.open₂ :: r) = .symbol d.open₂ :: pieces d r :=
    pieces_unclosed d fun hmem => h (List.mem_of_mem_tail hmem)
  rw [pass, hfirst, hsecond]
  rfl

theorem pass_block (h : d.close ∉ content) (l : List α) :
    pass d f (d.open₁ :: d.open₂ :: (content ++ d.close :: l)) = f content ++ pass d f l := by
  rw [pass, pieces_block d h]
  rfl

/-! ## Two replacements -/

theorem pass_congr (h : ∀ content, .block content ∈ pieces d l → f content = g content) :
    pass d f l = pass d g l := by
  refine List.flatMap_congr fun p hp => ?_
  cases p with
  | symbol x => rfl
  | block content => exact h content hp

omit [DecidableEq α] in
theorem length_flatMap_put_le (ps : List (Piece α))
    (h : ∀ content, (f content).length ≤ (g content).length) :
    (ps.flatMap (Piece.put f)).length ≤ (ps.flatMap (Piece.put g)).length := by
  induction ps with
  | nil => exact Nat.le_refl _
  | cons p ps ih =>
    rw [List.flatMap_cons, List.flatMap_cons, List.length_append, List.length_append]
    cases p with
    | symbol x => exact Nat.add_le_add_left ih 1
    | block content => exact Nat.add_le_add (h content) ih

/-- A replacement that is nowhere longer, and shorter for a block of the text, gives another text. -/
theorem pass_ne_of_shorter (h : ∀ content, (f content).length ≤ (g content).length)
    (hmem : .block content ∈ pieces d l) (hlt : (f content).length < (g content).length) :
    pass d f l ≠ pass d g l := by
  obtain ⟨before, after, hsplit⟩ := List.append_of_mem hmem
  intro heq
  have hlen := congrArg List.length heq
  rw [pass, pass, hsplit, List.flatMap_append, List.flatMap_append, List.flatMap_cons,
    List.flatMap_cons, List.length_append, List.length_append, List.length_append,
    List.length_append] at hlen
  have hbefore := length_flatMap_put_le before h
  have hafter := length_flatMap_put_le after h
  have hblock : ((Piece.block content).put f).length < ((Piece.block content).put g).length := hlt
  omega

end Backbone.Blocks
