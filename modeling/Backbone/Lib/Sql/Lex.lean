import Mathlib.Data.List.Basic

/-!
# Lexing SQL

A PostgreSQL lexer as a machine that reads one character at a time. The machine's mode is what the
characters so far leave open: a word, an operator, a quoted text, a comment. Lexing an appended text
is therefore lexing its first part and carrying on, `lex_append`, and a text that ends in a mode a
blank or a bracket closes keeps its own tokens whatever is written after that character,
`Lexes.brk`.
-/

namespace Backbone.Sql

/-- The brackets that group tokens. -/
inductive Bracket where
  | paren
  | square
deriving DecidableEq, Repr

/-- A token; `ν` is what stands at a placeholder: its number, or the value bound to it. -/
inductive Tok (ν : Type) where
  | word (w : List Char)
  | sym (o : List Char)
  | str (s : List Char)
  | ident (s : List Char)
  | hole (x : ν)
  | opening (b : Bracket)
  | closing (b : Bracket)
  | comma
  | semi
deriving DecidableEq, Repr

/-! ## Characters -/

/-- A character of a name or a number. Everything outside ASCII may stand in a name. -/
def isWordChar (c : Char) : Bool := c.isAlphanum || c == '_' || 128 ≤ c.toNat

/-- The tokens of a character that ends whatever stands before it: a blank, a bracket, a comma. -/
def breaks (c : Char) : Option (List (Tok ℕ)) :=
  match c with
  | ' ' | '\t' | '\n' | '\r' | '\x0b' | '\x0c' => some []
  | '(' => some [.opening .paren]
  | ')' => some [.closing .paren]
  | '[' => some [.opening .square]
  | ']' => some [.closing .square]
  | ',' => some [.comma]
  | ';' => some [.semi]
  | _ => none

/-- A character of an operator: what no other rule takes. -/
def isSymChar (c : Char) : Bool :=
  !isWordChar c && (breaks c).isNone && c != '\'' && c != '"' && c != '$'

/-! ## The machine -/

/-- What the characters read so far leave open. -/
inductive Mode where
  | idle
  | word (w : List Char)
  | sym (o : List Char)
  | hole (digits : List Char)
  /-- Inside `'…'`; with `esc`, inside `E'…'`, where a backslash escapes. -/
  | str (esc : Bool) (s : List Char)
  | strBackslash (s : List Char)
  /-- After a quote inside a string: its end, or the first half of a doubled quote. -/
  | strQuote (esc : Bool) (s : List Char)
  | ident (s : List Char)
  | identQuote (s : List Char)
  /-- After `$` and the characters of a dollar-quote tag. -/
  | dollar (tag : List Char)
  | dollarBody (tag s : List Char)
  | line
  /-- Inside `depth` nested block comments, after the character `last`. -/
  | block (depth : ℕ) (last : Char)
  | bad
deriving DecidableEq, Repr

/-- The first character of a token. -/
def start (c : Char) : Mode × List (Tok ℕ) :=
  match breaks c with
  | some ts => (.idle, ts)
  | none =>
    if c = '\'' then (.str false [], [])
    else if c = '"' then (.ident [], [])
    else if c = '$' then (.dollar [], [])
    else if isWordChar c then (.word [c], [])
    else (.sym [c], [])

/-- `c` starts the next token, after `t`. -/
def emit (t : Tok ℕ) (c : Char) : Mode × List (Tok ℕ) := ((start c).1, t :: (start c).2)

/-- The operator `o` as tokens; nothing when a comment took all of it. -/
def symTok (o : List Char) : List (Tok ℕ) := if o.isEmpty then [] else [.sym o]

/-- The number a placeholder's digits spell. -/
def holeNumber (digits : List Char) : ℕ := Nat.ofDigitChars 10 digits 0

/-- One character. -/
def step (m : Mode) (c : Char) : Mode × List (Tok ℕ) :=
  match m with
  | .idle => start c
  | .word w =>
    if isWordChar c || c == '$' || (c == '.' && w.head?.any Char.isDigit) then
      (.word (w ++ [c]), [])
    else if c = '\'' && (w == ['e'] || w == ['E']) then (.str true [], [])
    else emit (.word w) c
  | .sym o =>
    if c = '-' && o.getLast? == some '-' then (.line, symTok o.dropLast)
    else if c = '*' && o.getLast? == some '/' then (.block 1 ' ', symTok o.dropLast)
    else if isSymChar c then (.sym (o ++ [c]), [])
    else emit (.sym o) c
  | .hole digits =>
    if c.isDigit then (.hole (digits ++ [c]), [])
    else if isWordChar c || c == '$' then (.bad, [])
    else emit (.hole (holeNumber digits)) c
  | .str esc s =>
    if c = '\'' then (.strQuote esc s, [])
    else if esc && c == '\\' then (.strBackslash s, [])
    else (.str esc (s ++ [c]), [])
  | .strBackslash s => (.str true (s ++ ['\\', c]), [])
  | .strQuote esc s => if c = '\'' then (.str esc (s ++ [c]), []) else emit (.str s) c
  | .ident s => if c = '"' then (.identQuote s, []) else (.ident (s ++ [c]), [])
  | .identQuote s => if c = '"' then (.ident (s ++ [c]), []) else emit (.ident s) c
  | .dollar tag =>
    if tag.isEmpty && c.isDigit then (.hole [c], [])
    else if c = '$' then (.dollarBody tag [], [])
    else if isWordChar c then (.dollar (tag ++ [c]), [])
    else (.bad, [])
  | .dollarBody tag s =>
    let closer := '$' :: tag ++ ['$']
    if closer.isSuffixOf (s ++ [c]) then
      (.idle, [.str ((s ++ [c]).take (s.length + 1 - closer.length))])
    else (.dollarBody tag (s ++ [c]), [])
  | .line => if c = '\n' then (.idle, []) else (.line, [])
  | .block depth last =>
    if c = '*' && last == '/' then (.block (depth + 1) ' ', [])
    else if c = '/' && last == '*' then (if depth ≤ 1 then .idle else .block (depth - 1) ' ', [])
    else (.block depth c, [])
  | .bad => (.bad, [])

/-- The mode a text ends in, and the tokens it gave on the way. -/
def lex (m : Mode) : List Char → Mode × List (Tok ℕ)
  | [] => (m, [])
  | c :: cs => ((lex (step m c).1 cs).1, (step m c).2 ++ (lex (step m c).1 cs).2)

/-- The tokens a mode still holds when the text ends. An open quote or comment never ends, and what
is written after it would be swallowed. -/
def close : Mode → Option (List (Tok ℕ))
  | .idle => some []
  | .word w => some [.word w]
  | .sym o => some [.sym o]
  | .hole digits => some [.hole (holeNumber digits)]
  | .strQuote _ s => some [.str s]
  | .identQuote s => some [.ident s]
  | _ => none

/-- The tokens of a text; nothing when a quote or a comment is left open. -/
def tokens (s : List Char) : Option (List (Tok ℕ)) :=
  (close (lex .idle s).1).map ((lex .idle s).2 ++ ·)

/-! ## Composing texts -/

theorem lex_append (m : Mode) (s t : List Char) :
    lex m (s ++ t) = ((lex (lex m s).1 t).1, (lex m s).2 ++ (lex (lex m s).1 t).2) := by
  induction s generalizing m with
  | nil => rfl
  | cons c cs ih => simp [lex, ih]

variable {bs : List (Tok ℕ)} {c : Char}

/-- The characters that break are the blanks, the brackets, the comma and the semicolon. -/
theorem breaks_eq_some (h : breaks c = some bs) :
    c ∈ [' ', '\t', '\n', '\r', '\x0b', '\x0c', '(', ')', '[', ']', ',', ';'] := by
  unfold breaks at h
  split at h
  all_goals first | (simp; done) | cases h

theorem start_of_breaks (h : breaks c = some bs) : start c = (.idle, bs) := by
  simp [start, h]

/-- A character that breaks belongs to no word, operator, placeholder or quote. -/
theorem of_breaks (h : breaks c = some bs) :
    isWordChar c = false ∧ isSymChar c = false ∧ c.isDigit = false ∧ c ≠ '$' ∧ c ≠ '\'' ∧ c ≠ '"' ∧
      c ≠ '.' ∧ c ≠ '-' ∧ c ≠ '*' := by
  have hc := breaks_eq_some h
  simp only [List.mem_cons, List.not_mem_nil, or_false] at hc
  rcases hc with rfl | rfl | rfl | rfl | rfl | rfl | rfl | rfl | rfl | rfl | rfl | rfl <;> decide

variable {ts : List (Tok ℕ)}

/-- A character that breaks closes the mode before it. -/
theorem step_of_breaks {m : Mode} (hm : close m = some ts) (hc : breaks c = some bs) :
    step m c = (.idle, ts ++ bs) := by
  obtain ⟨hw, hs, hd, h1, h2, h3, h4, h5, h6⟩ := of_breaks hc
  cases m <;> simp_all [close, step, emit, start_of_breaks hc] <;> simp [← hm]

/-- `s` lexes to `ts` and leaves nothing open. -/
def Lexes (s : List Char) (ts : List (Tok ℕ)) : Prop := tokens s = some ts

theorem lexes_nil : Lexes [] [] := rfl

variable {s : List Char} {t : List Char} {us : List (Tok ℕ)}

theorem lexes_iff :
    Lexes s ts ↔ ∃ us, close (lex .idle s).1 = some us ∧ (lex .idle s).2 ++ us = ts := by
  simp [Lexes, tokens]

/-- A text keeps its tokens before a character that breaks, and what follows is lexed afresh. -/
theorem Lexes.brk (hs : Lexes s ts) (hc : breaks c = some bs)
    (ht : Lexes t us) : Lexes (s ++ c :: t) (ts ++ bs ++ us) := by
  obtain ⟨vs, hclose, rfl⟩ := lexes_iff.mp hs
  obtain ⟨ws, hclose', rfl⟩ := lexes_iff.mp ht
  refine lexes_iff.mpr ⟨ws, ?_, ?_⟩
  · rw [lex_append, lex, step_of_breaks hclose hc]
    exact hclose'
  · rw [lex_append, lex, step_of_breaks hclose hc]
    simp

/-- Two texts with a blank between them. -/
theorem Lexes.space (hs : Lexes s ts) (ht : Lexes t us) : Lexes (s ++ ' ' :: t) (ts ++ us) := by
  simpa using hs.brk (c := ' ') rfl ht

/-- A text in parentheses. -/
theorem Lexes.paren (hs : Lexes s ts) :
    Lexes ('(' :: (s ++ [')'])) (.opening .paren :: (ts ++ [.closing .paren])) := by
  have hclosed : Lexes (s ++ [')']) (ts ++ [.closing .paren]) := by
    simpa using hs.brk (c := ')') rfl lexes_nil
  simpa using lexes_nil.brk (c := '(') rfl hclosed

/-! ## Words, placeholders and casts -/

variable {cs : List Char} (n : ℕ)

theorem lex_word (h : ∀ c ∈ cs, isWordChar c) (w : List Char) :
    lex (.word w) cs = (.word (w ++ cs), []) := by
  induction cs generalizing w with
  | nil => simp [lex]
  | cons c cs ih =>
    have hc : isWordChar c := h c List.mem_cons_self
    simp [lex, step, hc, ih fun d hd => h d (List.mem_cons_of_mem _ hd)]

/-- A character of a word starts one. -/
theorem start_of_isWordChar (h : isWordChar c) : start c = (.word [c], []) := by
  have hb : breaks c = none := by
    cases hb : breaks c with
    | none => rfl
    | some bs => simp [(of_breaks hb).1] at h
  have h1 : c ≠ '\'' := by rintro rfl; exact absurd h (by decide)
  have h2 : c ≠ '"' := by rintro rfl; exact absurd h (by decide)
  have h3 : c ≠ '$' := by rintro rfl; exact absurd h (by decide)
  simp [start, hb, h1, h2, h3, h]

/-- A name is one token. -/
theorem lexes_word (hne : cs ≠ []) (h : ∀ c ∈ cs, isWordChar c) : Lexes cs [.word cs] := by
  obtain ⟨c, cs, rfl⟩ := List.exists_cons_of_ne_nil hne
  have hstart := start_of_isWordChar (h c List.mem_cons_self)
  have hrest := lex_word (fun d hd => h d (List.mem_cons_of_mem _ hd)) [c]
  simp [Lexes, tokens, lex, step, hstart, hrest, close]

theorem lex_hole (h : ∀ c ∈ cs, c.isDigit) (ds : List Char) :
    lex (.hole ds) cs = (.hole (ds ++ cs), []) := by
  induction cs generalizing ds with
  | nil => simp [lex]
  | cons c cs ih =>
    have hc : c.isDigit := h c List.mem_cons_self
    simp [lex, step, hc, ih fun d hd => h d (List.mem_cons_of_mem _ hd)]

/-- The text of the placeholder numbered `n`. -/
def holeText (n : ℕ) : List Char := '$' :: Nat.toDigits 10 n

/-- A placeholder leaves its own digits open. -/
theorem lex_holeText : lex .idle (holeText n) = (.hole (Nat.toDigits 10 n), []) := by
  have hdigits : ∀ c ∈ Nat.toDigits 10 n, c.isDigit := by
    intro c hc
    exact Nat.isDigit_of_mem_toDigits (by decide) (by decide) hc
  obtain ⟨d, ds, hd⟩ := List.exists_cons_of_ne_nil (Nat.toDigits_ne_nil (b := 10) (n := n))
  rw [hd] at hdigits
  have h0 : d.isDigit := hdigits d List.mem_cons_self
  have hrest := lex_hole (fun c hc => hdigits c (List.mem_cons_of_mem _ hc)) [d]
  have hdollar : start '$' = (.dollar [], []) := by decide
  simp [holeText, hd, lex, step, hdollar, h0, hrest]

theorem holeNumber_toDigits : holeNumber (Nat.toDigits 10 n) = n := by
  simp [holeNumber]

/-- A placeholder is one token, with its own number. -/
theorem lexes_hole : Lexes (holeText n) [.hole n] := by
  simp [Lexes, tokens, lex_holeText, close, holeNumber_toDigits]

/-- A placeholder and a text that starts with a word, with a cast between them. -/
theorem lexes_cast (hc : isSymChar c = false) (h : Lexes (c :: cs) ts) :
    Lexes (holeText n ++ ':' :: ':' :: c :: cs) (.hole n :: .sym [':', ':'] :: ts) := by
  obtain ⟨us, hclose, rfl⟩ := lexes_iff.mp h
  have hfirst : step (.hole (Nat.toDigits 10 n)) ':' =
      (.sym [':'], [.hole (holeNumber (Nat.toDigits 10 n))]) := rfl
  rw [holeNumber_toDigits] at hfirst
  have hsecond : step (.sym [':']) ':' = (.sym [':', ':'], []) := by decide
  have hthird : step (.sym [':', ':']) c = ((start c).1, .sym [':', ':'] :: (start c).2) := by
    simp [step, hc, emit]
  refine lexes_iff.mpr ⟨us, ?_, ?_⟩
  · rw [lex_append, lex_holeText]
    simp only [lex, hfirst, hsecond, hthird]
    exact hclose
  · rw [lex_append, lex_holeText]
    simp only [lex, hfirst, hsecond, hthird]
    rfl

end Backbone.Sql
