import Mathlib.Data.List.Sort
import Mathlib.Order.WithBot

/-!
# Keyset paging

Rows are sorted by a list of keys, with NULL last in ascending and first in descending order, and
handed out page by page. Every page after the first is read from a position: the rows that come
strictly after the last row of the page before, by a comparison that is unknown on NULL. A walk of
such pages never repeats a row and never leaves the order (`walk_sublist`). From a position without
NULLs, over rows without NULLs, it leaves nothing out (`walk_completes`).
-/

namespace Backbone.Keyset

/-- A sort key: a column and its direction. -/
structure Key (ι : Type*) where
  column : ι
  descending : Bool
deriving DecidableEq, Repr

variable {ρ ι : Type*} {V : ι → Type*} [∀ i, LinearOrder (V i)] (value : ρ → (i : ι) → Option (V i))
  {rows : List ρ}

/-! ## The order of the rows -/

/-- The ascending order of a column's values. NULL comes last. -/
def nullsLast {α : Type*} [LinearOrder α] : Option α → Option α → Bool
  | some x, some y => x < y
  | some _, none => true
  | none, _ => false

/-- Does the key put the first row before the second? -/
def Key.before (k : Key ι) (a b : ρ) : Bool :=
  if k.descending then nullsLast (value b k.column) (value a k.column)
  else nullsLast (value a k.column) (value b k.column)

/-- The order of the keys: the first column in which two rows differ decides. -/
def before : List (Key ι) → ρ → ρ → Bool
  | [], _, _ => false
  | k :: ks, a, b =>
    k.before value a b || (value a k.column = value b k.column && before ks a b)

/-- The rows in the order of the keys. -/
def ordered (ks : List (Key ι)) (rows : List ρ) : List ρ :=
  rows.insertionSort fun a b => before value ks b a = false

section NullsLast

variable {α : Type*} [LinearOrder α] {x y z : Option α}

/-- The place of a value among values and NULL. -/
def rank : Option α → WithTop α
  | some x => x
  | none => ⊤

theorem nullsLast_iff : nullsLast x y ↔ rank x < rank y := by
  cases x <;> cases y <;> simp [nullsLast, rank]

omit [LinearOrder α] in
theorem rank_inj (h : rank x = rank y) : x = y := by
  cases x <;> cases y <;> simp_all [rank]

end NullsLast

variable {value} {k : Key ι} {ks : List (Key ι)} {a b c : ρ} {pre post : List ρ}

/-- The place of a row in a column, turned round in descending order. -/
theorem Key.before_iff : k.before value a b ↔
    (if k.descending then rank (value b k.column) < rank (value a k.column)
      else rank (value a k.column) < rank (value b k.column)) := by
  unfold Key.before
  split <;> exact nullsLast_iff

theorem Key.before_irrefl (h : value a k.column = value b k.column) : k.before value a b = false := by
  rw [← Bool.not_eq_true, Key.before_iff, h]
  split <;> exact lt_irrefl _

theorem Key.before_trans (hab : k.before value a b) (hbc : k.before value b c) :
    k.before value a c := by
  rw [Key.before_iff] at *
  split at * <;> rename_i hd
  · rw [if_pos hd] at hbc ⊢
    exact hbc.trans hab
  · rw [if_neg hd] at hbc ⊢
    exact hab.trans hbc

theorem Key.before_trichotomy (value : ρ → (i : ι) → Option (V i)) (k : Key ι) (a b : ρ) :
    k.before value a b ∨ value a k.column = value b k.column ∨ k.before value b a := by
  rw [Key.before_iff, Key.before_iff]
  rcases lt_trichotomy (rank (value a k.column)) (rank (value b k.column)) with h | h | h
  · split <;> simp [h]
  · exact .inr (.inl (rank_inj h))
  · split <;> simp [h]

theorem Key.before_congr (hab : value a k.column = value b k.column) (c : ρ) :
    k.before value a c = k.before value b c ∧ k.before value c a = k.before value c b := by
  simp [Key.before, hab]

/-- Rows with the same value in every key. -/
def Same (value : ρ → (i : ι) → Option (V i)) (ks : List (Key ι)) (a b : ρ) : Prop :=
  ∀ k ∈ ks, value a k.column = value b k.column

theorem before_cons : before value (k :: ks) a b ↔
    k.before value a b ∨ value a k.column = value b k.column ∧ before value ks a b := by
  simp [before]

theorem before_irrefl (h : Same value ks a b) : before value ks a b = false := by
  induction ks with
  | nil => rfl
  | cons k ks ih =>
    obtain ⟨hk, hks⟩ := List.forall_mem_cons.mp h
    simp [before, Key.before_irrefl hk, ih hks]

theorem before_trans (hab : before value ks a b) (hbc : before value ks b c) :
    before value ks a c := by
  induction ks with
  | nil => cases hab
  | cons k ks ih =>
    rw [before_cons] at *
    rcases hab with hab | ⟨hab, hab'⟩
    · rcases hbc with hbc | ⟨hbc, -⟩
      · exact .inl (Key.before_trans hab hbc)
      · exact .inl ((Key.before_congr hbc a).2 ▸ hab)
    · rcases hbc with hbc | ⟨hbc, hbc'⟩
      · exact .inl ((Key.before_congr hab c).1 ▸ hbc)
      · exact .inr ⟨hab.trans hbc, ih hab' hbc'⟩

theorem before_trichotomy (value : ρ → (i : ι) → Option (V i)) (ks : List (Key ι)) (a b : ρ) :
    before value ks a b ∨ Same value ks a b ∨ before value ks b a := by
  induction ks with
  | nil => exact .inr (.inl (by simp [Same]))
  | cons k ks ih =>
    rw [before_cons, before_cons, Same, List.forall_mem_cons]
    rcases Key.before_trichotomy value k a b with h | h | h
    · exact .inl (.inl h)
    · rcases ih with ih | ih | ih
      · exact .inl (.inr ⟨h, ih⟩)
      · exact .inr (.inl ⟨h, ih⟩)
      · exact .inr (.inr (.inr ⟨h.symm, ih⟩))
    · exact .inr (.inr (.inl h))

theorem before_asymm (h : before value ks a b) : before value ks b a = false := by
  rw [← Bool.not_eq_true]
  intro h'
  have hself := before_trans h h'
  rw [before_irrefl fun _ _ => rfl] at hself
  cases hself

theorem before_congr (h : Same value ks a b) (c : ρ) : before value ks c a = before value ks c b := by
  induction ks with
  | nil => rfl
  | cons k ks ih =>
    obtain ⟨hk, hks⟩ := List.forall_mem_cons.mp h
    rw [before, before, (Key.before_congr hk c).2, hk, ih hks]

/-! ## Sorting -/

theorem not_before_trans (hab : before value ks b a = false) (hbc : before value ks c b = false) :
    before value ks c a = false := by
  rw [← Bool.not_eq_true]
  intro hca
  rcases before_trichotomy value ks a b with h | h | h
  · rw [before_trans hca h] at hbc
    cases hbc
  · rw [before_congr h c, hbc] at hca
    cases hca
  · rw [h] at hab
    cases hab

/-- Sorting keeps the rows. -/
theorem ordered_perm (ks : List (Key ι)) (rows : List ρ) : (ordered value ks rows).Perm rows :=
  List.perm_insertionSort ..

/-- Rows that differ in some key have one order. -/
theorem pairwise_ordered (h : rows.Pairwise fun a b => ¬ Same value ks a b) :
    (ordered value ks rows).Pairwise fun a b => before value ks a b := by
  have hle : (ordered value ks rows).Pairwise fun a b => before value ks b a = false := by
    let r : ρ → ρ → Prop := fun a b => before value ks b a = false
    have htotal : Std.Total r := ⟨fun a b => by
      by_cases hab : before value ks b a
      · exact .inr (before_asymm hab)
      · exact .inl (Bool.not_eq_true _ ▸ hab : before value ks b a = false)⟩
    have htrans : IsTrans ρ r := ⟨fun a b c => not_before_trans⟩
    exact List.pairwise_insertionSort r rows
  have hdiff : (ordered value ks rows).Pairwise fun a b => ¬ Same value ks a b := by
    refine h.perm (ordered_perm ks rows).symm fun hab hba => hab fun k hk => (hba k hk).symm
  refine (hle.and hdiff).imp fun {a b} ⟨hba, hne⟩ => ?_
  rcases before_trichotomy value ks a b with h | h | h
  · exact h
  · exact absurd h hne
  · rw [h] at hba
    cases hba

/-- Sorting and filtering commute. -/
theorem ordered_filter (h : rows.Pairwise fun a b => ¬ Same value ks a b) (p : ρ → Bool) :
    ordered value ks (rows.filter p) = (ordered value ks rows).filter p := by
  have hperm : (ordered value ks (rows.filter p)).Perm ((ordered value ks rows).filter p) :=
    (ordered_perm ks _).trans ((ordered_perm ks rows).filter p).symm
  have hleft := pairwise_ordered (h.sublist List.filter_sublist : (rows.filter p).Pairwise _)
  have hright := (pairwise_ordered h).sublist (List.filter_sublist : (List.filter p _).Sublist _)
  refine hperm.eq_of_pairwise ?_ hleft hright
  intro a b _ _ hab hba
  rw [before_asymm hab] at hba
  cases hba

/-! ## The other way round -/

variable (value)

/-- The comparison that is true when the second row is strictly past the first in this column. It is
not true when one of the values is NULL. -/
def Key.past (k : Key ι) (b r : ρ) : Bool :=
  match value b k.column, value r k.column with
  | some x, some y => if k.descending then y < x else x < y
  | _, _ => false

/-- The comparison that is true when both rows have one value in this column. -/
def Key.equals (k : Key ι) (b r : ρ) : Bool :=
  match value b k.column, value r k.column with
  | some x, some y => x = y
  | _, _ => false

/-- The rows strictly after a position: in some column past it, and equal to it before. -/
def after : List (Key ι) → ρ → ρ → Bool
  | [], _, _ => false
  | k :: ks, b, r => k.past value b r || (k.equals value b r && after ks b r)

/-- A row with a value in every key. -/
def keyed (ks : List (Key ι)) (a : ρ) : Bool := ks.all fun k => (value a k.column).isSome

variable {value}

theorem after_cons : after value (k :: ks) a b ↔
    k.past value a b ∨ k.equals value a b ∧ after value ks a b := by
  simp [after]

theorem Key.before_of_past (h : k.past value a b) : k.before value a b := by
  unfold Key.past at h
  unfold Key.before
  cases ha : value a k.column <;> cases hb : value b k.column <;> simp_all [nullsLast]

theorem Key.past_of_before (ha : (value a k.column).isSome) (hb : (value b k.column).isSome)
    (h : k.before value a b) : k.past value a b := by
  obtain ⟨x, hx⟩ := Option.isSome_iff_exists.mp ha
  obtain ⟨y, hy⟩ := Option.isSome_iff_exists.mp hb
  simpa [Key.past, Key.before, hx, hy, nullsLast] using h

theorem Key.equals_iff :
    k.equals value a b ↔ value a k.column = value b k.column ∧ (value a k.column).isSome := by
  unfold Key.equals
  cases ha : value a k.column <;> cases hb : value b k.column <;> simp

theorem Key.past_congr (h : value a k.column = value b k.column) (c : ρ) :
    k.past value a c = k.past value b c ∧ k.past value c a = k.past value c b := by
  simp [Key.past, h]

theorem Key.past_trans (hab : k.past value a b) (hbc : k.past value b c) : k.past value a c := by
  unfold Key.past at *
  cases ha : value a k.column <;> cases hb : value b k.column <;> cases hc : value c k.column <;>
    simp only [ha, hb, hc] at hab hbc ⊢ <;> try contradiction
  cases hd : k.descending <;> simp only [hd, if_true, Bool.false_eq_true, if_false,
    decide_eq_true_eq] at hab hbc ⊢
  · exact hab.trans hbc
  · exact hbc.trans hab

/-- A row after a position is behind it in the order. -/
theorem before_of_after (h : after value ks a b) : before value ks a b := by
  induction ks with
  | nil => cases h
  | cons k ks ih =>
    rw [after_cons] at h
    rw [before_cons]
    rcases h with h | ⟨heq, h⟩
    · exact .inl (Key.before_of_past h)
    · exact .inr ⟨(Key.equals_iff.mp heq).1, ih h⟩

/-- Among rows with a value in every key the converse holds. -/
theorem after_of_before (ha : keyed value ks a) (hb : keyed value ks b)
    (h : before value ks a b) : after value ks a b := by
  induction ks with
  | nil => cases h
  | cons k ks ih =>
    simp only [keyed, List.all_cons, Bool.and_eq_true] at ha hb
    rw [before_cons] at h
    rw [after_cons]
    rcases h with h | ⟨heq, h⟩
    · exact .inl (Key.past_of_before ha.1 hb.1 h)
    · exact .inr ⟨Key.equals_iff.mpr ⟨heq, ha.1⟩, ih ha.2 hb.2 h⟩

theorem after_trans (hab : after value ks a b) (hbc : after value ks b c) : after value ks a c := by
  induction ks with
  | nil => cases hab
  | cons k ks ih =>
    rw [after_cons] at *
    rcases hab with hab | ⟨hab, hab'⟩
    · rcases hbc with hbc | ⟨hbc, -⟩
      · exact .inl (Key.past_trans hab hbc)
      · exact .inl ((Key.past_congr (Key.equals_iff.mp hbc).1 a).2 ▸ hab)
    · rcases hbc with hbc | ⟨hbc, hbc'⟩
      · exact .inl ((Key.past_congr (Key.equals_iff.mp hab).1 c).1 ▸ hbc)
      · rw [Key.equals_iff] at hab hbc
        exact .inr ⟨Key.equals_iff.mpr ⟨hab.1.trans hbc.1, hab.2⟩, ih hab' hbc'⟩

/-- A key that repeats an earlier column decides nothing. -/
theorem after_append_of_mem {last : Key ι} (h : ∃ k ∈ ks, k.column = last.column) :
    after value (ks ++ [last]) a b = after value ks a b := by
  have key (ks : List (Key ι)) : after value (ks ++ [last]) a b ↔
      after value ks a b ∨ (∀ k ∈ ks, k.equals value a b) ∧ last.past value a b := by
    induction ks with
    | nil => simp [after]
    | cons k ks ih =>
      rw [List.cons_append, after_cons, after_cons, ih, List.forall_mem_cons]
      tauto
  rw [Bool.eq_iff_iff, key, or_iff_left]
  rintro ⟨hall, hpast⟩
  obtain ⟨k, hk, hcol⟩ := h
  have heq := (Key.equals_iff.mp (hall k hk)).1
  rw [hcol] at heq
  have hbefore := Key.before_of_past hpast
  rw [Key.before_irrefl heq] at hbefore
  cases hbefore

/-! ## Walking -/

variable (value)

/-- A page of rows, and whether more rows follow it. -/
structure Page (ρ : Type*) where
  rows : List ρ
  more : Bool

/-- The pages a reader gets who starts with the rows `rest` of `rows` and asks `n` times at most: as
many rows as fit on a page, and on from the last of them when more rows follow and it keys a
position. -/
def walk (ks : List (Key ι)) (limit : ℕ) (rows : List ρ) : ℕ → List ρ → List (Page ρ)
  | 0, _ => []
  | n + 1, rest =>
    ⟨rest.take limit, limit < rest.length⟩ :: match (rest.take limit).getLast? with
      | some b =>
        if limit < rest.length && keyed value ks b then
          walk ks limit rows n (rows.filter (after value ks b))
        else []
      | none => []

variable {value} {rows rest : List ρ} {limit : ℕ}

/-- The step of a walk that leads on. -/
theorem walk_next (hmore : limit < rest.length) (hb : (rest.take limit).getLast? = some b)
    (hkeyed : keyed value ks b) (n : ℕ) :
    walk value ks limit rows (n + 1) rest = ⟨rest.take limit, limit < rest.length⟩ ::
      walk value ks limit rows n (rows.filter (after value ks b)) := by
  rw [walk]
  simp only [hb, hmore, hkeyed, decide_true, Bool.and_self, if_true]

/-- A walk stops when nothing follows, or at a row that keys no position. -/
theorem walk_stop (h : limit < rest.length →
    ∀ b, (rest.take limit).getLast? = some b → keyed value ks b = false) (n : ℕ) :
    walk value ks limit rows (n + 1) rest = [⟨rest.take limit, limit < rest.length⟩] := by
  rw [walk]
  split
  · rename_i b hb
    by_cases hmore : limit < rest.length
    · simp [hmore, h hmore b hb]
    · simp [hmore]
  · rfl

/-- What a walk has left: rows in order, and after each of them all the rows that are after it. -/
structure Remains (value : ρ → (i : ι) → Option (V i)) (ks : List (Key ι)) (rows rest : List ρ) :
    Prop where
  pairwise : rest.Pairwise fun a b => before value ks a b
  closed : ∀ b ∈ rest, rows.filter (after value ks b) = rest.filter (after value ks b)

theorem remains_refl (h : rows.Pairwise fun a b => before value ks a b) :
    Remains value ks rows rows :=
  ⟨h, fun _ _ => rfl⟩

/-- The rows after one of the rest, in the rest cut behind it. -/
theorem Remains.filter_after (h : Remains value ks rows rest)
    (hrest : rest = pre ++ b :: post) :
    rows.filter (after value ks b) = post.filter (after value ks b) := by
  have hpw := h.pairwise
  rw [hrest, List.pairwise_append, List.pairwise_cons] at hpw
  have hpre : pre.filter (after value ks b) = [] := by
    rw [List.filter_eq_nil_iff]
    intro x hx hafter
    have := before_asymm (hpw.2.2 x hx b List.mem_cons_self)
    rw [before_of_after hafter] at this
    cases this
  have hself : after value ks b b = false := by
    rw [← Bool.not_eq_true]
    intro hafter
    have := before_of_after hafter
    rw [before_irrefl fun _ _ => rfl] at this
    cases this
  rw [h.closed b (by simp [hrest]), hrest, List.filter_append, hpre, List.filter_cons, hself]
  simp

/-- The next rows remain. -/
theorem Remains.next (h : Remains value ks rows rest) (hb : b ∈ rest) :
    Remains value ks rows (rows.filter (after value ks b)) := by
  refine ⟨?_, fun c hc => ?_⟩
  · rw [h.closed b hb]
    exact h.pairwise.sublist List.filter_sublist
  · rw [List.filter_filter]
    refine List.filter_congr fun x _ => ?_
    have hbc : after value ks b c := (List.mem_filter.mp hc).2
    rw [Bool.eq_iff_iff, Bool.and_eq_true]
    exact (and_iff_left_of_imp (after_trans hbc)).symm

/-- The last row of a full page, with the rows before and behind it. -/
theorem take_getLast (hb : (rest.take limit).getLast? = some b) :
    rest = (rest.take limit).dropLast ++ b :: rest.drop limit := by
  have htake : (rest.take limit).dropLast ++ [b] = rest.take limit := by
    rw [List.dropLast_append_getLast?]
    exact hb
  conv_lhs => rw [← List.take_append_drop limit rest, ← htake]
  simp

/-- A walk stays in order and repeats nothing. -/
theorem walk_sublist (h : Remains value ks rows rest) (n : ℕ) :
    ((walk value ks limit rows n rest).flatMap Page.rows).Sublist rest := by
  induction n generalizing rest with
  | zero => simp [walk]
  | succ n ih =>
    rw [walk, List.flatMap_cons]
    conv_rhs => rw [← List.take_append_drop limit rest]
    refine List.Sublist.append_left ?_ _
    split
    · rename_i b hb
      split
      · have hsplit := take_getLast hb
        have hmem : b ∈ rest := by rw [hsplit]; simp
        refine (ih (h.next hmem)).trans ?_
        rw [h.filter_after hsplit]
        exact List.filter_sublist
      · exact List.nil_sublist _
    · exact List.nil_sublist _

/-- Pages that lead on from each to the next and end with nothing left. -/
structure Completes (value : ρ → (i : ι) → Option (V i)) (ks : List (Key ι)) (rows : List ρ)
    (pages : List (Page ρ)) : Prop where
  rows_eq : pages.flatMap Page.rows = rows
  keyed : ∀ page ∈ pages, page.more → ∃ b, page.rows.getLast? = some b ∧ keyed value ks b
  ends : ∃ page, pages.getLast? = some page ∧ page.more = false

/-- The rest that fits on a page. -/
theorem walk_last (h : rest.length ≤ limit) (n : ℕ) :
    walk value ks limit rows (n + 1) rest = [⟨rest, false⟩] := by
  rw [walk_stop (fun hmore => absurd hmore (by omega)), List.take_of_length_le h]
  simpa using h

omit [∀ i, LinearOrder (V i)] in
theorem completes_last (rest : List ρ) : Completes value ks rest [⟨rest, false⟩] :=
  ⟨by simp, by simp, _, rfl, rfl⟩

/-- A walk over rows with a value in every key, from the last row of its first page on, ends with
all of them read. -/
theorem walk_completes (h : Remains value ks rows rest) (hlimit : 0 < limit)
    (hkeyed : ∀ r ∈ rest.drop (limit - 1), keyed value ks r) {n : ℕ}
    (hn : rest.length ≤ (n + 1) * limit) :
    Completes value ks rest (walk value ks limit rows (n + 1) rest) := by
  induction n generalizing rest with
  | zero =>
    have hlen : rest.length ≤ limit := by omega
    rw [walk_last hlen]
    exact completes_last rest
  | succ n ih =>
    by_cases hmore : limit < rest.length
    · have hne : rest.take limit ≠ [] := by
        rw [← List.length_pos_iff, List.length_take]
        omega
      have hb := List.getLast?_eq_some_getLast hne
      generalize (rest.take limit).getLast hne = b at hb
      have hsplit := take_getLast hb
      have hdrop : rest.drop (limit - 1) = b :: rest.drop limit := by
        conv_lhs => rw [hsplit]
        exact List.drop_left' (by rw [List.length_dropLast, List.length_take]; omega)
      rw [hdrop, List.forall_mem_cons] at hkeyed
      have hpw := h.pairwise
      rw [hsplit, List.pairwise_append, List.pairwise_cons] at hpw
      have hnext : rows.filter (after value ks b) = rest.drop limit := by
        rw [h.filter_after hsplit, List.filter_eq_self]
        exact fun r hr => after_of_before hkeyed.1 (hkeyed.2 r hr) (hpw.2.1.1 r hr)
      have hmem : b ∈ rest := by rw [hsplit]; simp
      have hrest := h.next hmem
      rw [hnext] at hrest
      have hlen : (rest.drop limit).length ≤ (n + 1) * limit := by
        rw [List.length_drop]
        have : (n + 1 + 1) * limit = (n + 1) * limit + limit := Nat.succ_mul ..
        omega
      have hih := ih hrest (fun r hr => hkeyed.2 r (List.mem_of_mem_drop hr)) hlen
      rw [walk_next hmore hb hkeyed.1, hnext]
      obtain ⟨page, hpage, hend⟩ := hih.ends
      refine ⟨?_, List.forall_mem_cons.mpr ⟨fun _ => ⟨b, hb, hkeyed.1⟩, hih.keyed⟩, page, ?_, hend⟩
      · rw [List.flatMap_cons, hih.rows_eq]
        exact List.take_append_drop ..
      · rw [List.getLast?_cons, hpage]
        rfl
    · rw [walk_last (by omega)]
      exact completes_last rest

/-! ## Pages by number -/

section PageRows

variable {n : ℕ}

end PageRows

end Backbone.Keyset
