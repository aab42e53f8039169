import Mathlib.Data.List.Chain
import Backbone.Lib.Sql.Lex

/-!
# Texts side by side

Where one text is written right behind another, the seam may disappear: a word goes on, a quote is
doubled, an operator grows or becomes a comment. `Meets u v` says that `v` starts a new token behind
`u`; texts that meet keep their own tokens, `tokens_flatten`.
-/

namespace Backbone.Sql

/-- Does the character end what is open, and start the next token? -/
def cuts (m : Mode) (c : Char) : Bool :=
  match close m with
  | some ts => step m c = ((start c).1, ts ++ (start c).2)
  | none => false

/-- The second text starts a new token behind the first one. -/
def Meets (u v : List Char) : Prop := ∃ c ∈ v.head?, cuts (lex .idle u).1 c

instance (u v : List Char) : Decidable (Meets u v) :=
  match v with
  | [] => isFalse (by rintro ⟨c, hc, -⟩; cases hc)
  | c :: _ => decidable_of_iff (cuts (lex .idle u).1 c) (by simp [Meets])

theorem cuts_eq_true {m : Mode} {c : Char} (h : cuts m c) :
    ∃ ts, close m = some ts ∧ step m c = ((start c).1, ts ++ (start c).2) := by
  unfold cuts at h
  split at h
  · rename_i ts hm
    exact ⟨ts, hm, of_decide_eq_true h⟩
  · cases h

/-- A word starts behind an operator. -/
theorem cuts_sym_of_isWordChar (o : List Char) {c : Char} (h : isWordChar c) : cuts (.sym o) c := by
  have h1 : c ≠ '-' := by rintro rfl; exact absurd h (by decide)
  have h2 : c ≠ '*' := by rintro rfl; exact absurd h (by decide)
  have hsym : isSymChar c = false := by simp [isSymChar, h]
  simp [cuts, close, step, h1, h2, hsym, emit]

/-- A placeholder is cut by a character that is neither a digit nor the start of another one. -/
theorem of_cuts_hole {digits : List Char} {c : Char} (h : cuts (.hole digits) c) :
    c.isDigit = false ∧ c ≠ '$' := by
  obtain ⟨ts, -, hstep⟩ := cuts_eq_true h
  have hmode : (start c).1 = (step (.hole digits) c).1 := by rw [hstep]
  constructor
  · by_contra hdigit
    have hd : c.isDigit = true := by simpa using hdigit
    have hword : isWordChar c = true := by simp [isWordChar, Char.isAlphanum, hd]
    simp [start_of_isWordChar hword, step, hd] at hmode
  · rintro rfl
    have hstart : (start '$').1 = .dollar [] := by decide
    simp [hstart, step] at hmode

/-- Texts that meet keep their tokens. -/
theorem Meets.tokens_append {u v : List Char} (h : Meets u v) :
    tokens (u ++ v) = (tokens u).bind fun ts => (tokens v).map (ts ++ ·) := by
  obtain ⟨c, hc, hcuts⟩ := h
  obtain ⟨cs, rfl⟩ := List.head?_eq_some_iff.mp hc
  obtain ⟨ts, hclose, hstep⟩ := cuts_eq_true hcuts
  have hidle : step .idle c = start c := rfl
  have hu : tokens u = some ((lex .idle u).2 ++ ts) := by simp [tokens, hclose]
  rw [hu, Option.bind_some, tokens, tokens, lex_append]
  simp only [lex, hstep, hidle, Option.map_map]
  congr 1
  funext us
  simp

/-- The tokens of texts in a row, each lexed on its own. -/
def tokensAll : List (List Char) → Option (List (Tok ℕ))
  | [] => some []
  | w :: ws => (tokens w).bind fun ts => (tokensAll ws).map (ts ++ ·)

/-- Texts in a row, each of which starts a new token, have the tokens of each. -/
theorem tokens_flatten {ws : List (List Char)} (h : ws.IsChain Meets) :
    tokens ws.flatten = tokensAll ws := by
  induction ws with
  | nil => rfl
  | cons u ws ih =>
    cases ws with
    | nil => simp [tokensAll]
    | cons v ws =>
      rw [List.isChain_cons_cons] at h
      have hmeets : Meets u (v :: ws).flatten := by
        obtain ⟨c, hc, hcuts⟩ := h.1
        obtain ⟨cs, rfl⟩ := List.head?_eq_some_iff.mp hc
        exact ⟨c, by simp, hcuts⟩
      rw [List.flatten_cons, hmeets.tokens_append, ih h.2]
      rfl

end Backbone.Sql
