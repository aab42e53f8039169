import Backbone.Lib.Sql.Lex

/-!
# One INSERT

The grammar of a text that is one `INSERT` of one row, over its tokens, and what a string literal is
in the text: its characters with each quote doubled, between quotes. A literal that is read from a
text stands in it, `exists_of_literals_str`, so that what is read and what was written can be
compared character by character.
-/

namespace Backbone.Sql

/-- What stands for a column of the row. -/
inductive RowValue where
  | text (s : List Char)
  | number (digits : List Char)
  /-- A call without arguments. -/
  | call (name : List Char)
deriving DecidableEq, Repr

def RowValue.tokens : RowValue → List (Tok ℕ)
  | .text s => [.str s]
  | .number digits => [.word digits]
  | .call name => [.word name, .opening .paren, .closing .paren]

/-- `INSERT INTO table (columns) VALUES (values)`. -/
structure Insert where
  table : List Char
  columns : List (List Char)
  values : List RowValue
  length_eq : columns.length = values.length

def Insert.tokens (i : Insert) : List (Tok ℕ) :=
  [.word "INSERT".toList, .word "INTO".toList, .word i.table, .opening .paren] ++
    [Tok.comma].intercalate (i.columns.map fun column => [.word column]) ++
    [.closing .paren, .word "VALUES".toList, .opening .paren] ++
    [Tok.comma].intercalate (i.values.map RowValue.tokens) ++ [.closing .paren]

/-- The string literals, decoded. -/
def literals (ts : List (Tok ℕ)) : List (List Char) :=
  ts.filterMap fun
    | .str s => some s
    | _ => none

/-- A text with its quotes doubled. -/
def quoted (cs : List Char) : List Char :=
  cs.flatMap fun c => if c = '\'' then ['\'', '\''] else [c]

/-- The tokens that a text gives from a mode on. -/
def tokensFrom (m : Mode) (s : List Char) : Option (List (Tok ℕ)) :=
  (close (lex m s).1).map ((lex m s).2 ++ ·)

theorem tokens_eq (s : List Char) : Sql.tokens s = tokensFrom .idle s := rfl

theorem tokensFrom_cons (m : Mode) (c : Char) (cs : List Char) :
    tokensFrom m (c :: cs) = (tokensFrom (step m c).1 cs).map ((step m c).2 ++ ·) := by
  simp [tokensFrom, lex, Option.map_map, Function.comp_def]

theorem tokensFrom_append (m : Mode) (s t : List Char) :
    tokensFrom m (s ++ t) = (tokensFrom (lex m s).1 t).map ((lex m s).2 ++ ·) := by
  simp [tokensFrom, lex_append, Option.map_map, Function.comp_def]

/-! ## String literals -/

theorem literals_append (ts us : List (Tok ℕ)) : literals (ts ++ us) = literals ts ++ literals us :=
  List.filterMap_append

variable (cs : List Char)

theorem quoted_cons_quote : quoted ('\'' :: cs) = '\'' :: '\'' :: quoted cs := rfl

theorem quoted_cons_of_ne {c : Char} (hc : c ≠ '\'') (cs : List Char) :
    quoted (c :: cs) = c :: quoted cs := by
  rw [quoted, List.flatMap_cons, if_neg hc]
  rfl

theorem quoted_append (a b : List Char) : quoted (a ++ b) = quoted a ++ quoted b :=
  List.flatMap_append

theorem quoted_eq_self {cs : List Char} (h : '\'' ∉ cs) : quoted cs = cs := by
  induction cs with
  | nil => rfl
  | cons c cs ih =>
    rw [List.mem_cons, not_or] at h
    rw [quoted_cons_of_ne (Ne.symm h.1), ih h.2]

/-- A string literal reads its characters from their quoted text. -/
theorem lex_quoted (s : List Char) :
    lex (.str false s) (quoted cs) = (.str false (s ++ cs), []) := by
  induction cs generalizing s with
  | nil => simp [quoted, lex]
  | cons c cs ih =>
    by_cases hc : c = '\''
    · subst hc
      rw [quoted_cons_quote]
      simp [lex, step, ih]
    · rw [quoted_cons_of_ne hc]
      simp [lex, step, hc, ih]

/-- What was quoted is what a string literal reads. -/
theorem quoted_injective : Function.Injective quoted := by
  intro a b h
  have hread := lex_quoted a []
  rw [h, lex_quoted] at hread
  cases hread
  rfl

/-- The first literal of a text that begins inside of a literal stands in it, quoted and up to its
closing quote; behind a quote, the literal is over or the quote was the first of two. -/
theorem exists_of_literals_str :
    ∀ (s s' : List Char) (ts : List (Tok ℕ)) (rest : List (List Char)), literals ts = s' :: rest →
      (tokensFrom (.str false s) cs = some ts →
        ∃ t more, cs = quoted t ++ '\'' :: more ∧ s' = s ++ t) ∧
      (tokensFrom (.strQuote false s) cs = some ts →
        s' = s ∨ ∃ t more, cs = '\'' :: (quoted t ++ '\'' :: more) ∧ s' = s ++ '\'' :: t) := by
  induction cs with
  | nil =>
    intro s s' ts rest hts
    refine ⟨fun h => ?_, fun h => .inl ?_⟩
    · cases h
    · cases h
      exact (List.cons.inj hts).1.symm
  | cons c cs ih =>
    intro s s' ts rest hts
    by_cases hc : c = '\''
    · subst hc
      constructor
      · intro h
        rw [tokensFrom_cons] at h
        have h : tokensFrom (.strQuote false s) cs = some ts := by simpa [step] using h
        rcases (ih s s' ts rest hts).2 h with rfl | ⟨t, more, rfl, rfl⟩
        · exact ⟨[], cs, rfl, by simp⟩
        · exact ⟨'\'' :: t, more, rfl, rfl⟩
      · intro h
        rw [tokensFrom_cons] at h
        have h : tokensFrom (.str false (s ++ ['\''])) cs = some ts := by simpa [step] using h
        obtain ⟨t, more, rfl, rfl⟩ := (ih _ s' ts rest hts).1 h
        exact .inr ⟨t, more, rfl, by simp⟩
    · constructor
      · intro h
        rw [tokensFrom_cons] at h
        have h : tokensFrom (.str false (s ++ [c])) cs = some ts := by simpa [step, hc] using h
        obtain ⟨t, more, rfl, rfl⟩ := (ih _ s' ts rest hts).1 h
        exact ⟨c :: t, more, by rw [quoted_cons_of_ne hc]; rfl, by simp⟩
      · intro h
        -- The literal is over, and its token is the first one.
        rw [tokensFrom_cons] at h
        simp only [step, hc, if_false, emit, Option.map_eq_some_iff] at h
        obtain ⟨us, -, rfl⟩ := h
        exact .inl (List.cons.inj hts).1.symm

/-! ## The literals of an insert -/

/-- The string literals of the row. -/
def Insert.texts (i : Insert) : List (List Char) :=
  i.values.filterMap fun
    | .text s => some s
    | _ => none

theorem literals_intercalate (parts : List (List (Tok ℕ))) :
    literals ([Tok.comma].intercalate parts) = parts.flatMap literals := by
  induction parts with
  | nil => rfl
  | cons p parts ih =>
    cases parts with
    | nil => simp
    | cons q parts =>
      rw [List.intercalate_cons_cons, literals_append, literals_append, ih]
      simp [literals]

theorem literals_insert (i : Insert) : literals i.tokens = i.texts := by
  have hcolumns : (i.columns.map fun column => [Tok.word column]).flatMap literals = [] := by
    rw [List.flatMap_eq_nil_iff]
    intro ts hts
    obtain ⟨column, -, rfl⟩ := List.mem_map.mp hts
    rfl
  have hvalues : (i.values.map RowValue.tokens).flatMap literals = i.texts := by
    rw [Insert.texts]
    induction i.values with
    | nil => rfl
    | cons v values ih => cases v <;> simp [RowValue.tokens, literals] at ih ⊢ <;> exact ih
  simp only [Insert.tokens, literals_append, literals_intercalate, hcolumns, hvalues]
  simp [literals]

end Backbone.Sql
