import Backbone.Orm.RawQuery

/-!
# Inlined parameters mean what bound ones do

A template whose placeholders stand outside of literals, and values for them. The loop of `build`
replaces at every step all occurrences of its own placeholder and nothing else exactly when each
placeholder occurs at most once and is not read earlier in the text as it is then: inside of a larger
number, of an earlier value or of a quoted text (`build_inlines_iff`). The inlined text is the
parameterised statement with literals for its placeholders when moreover no literal runs into what
stands next to it: a negative number behind an operator, a text next to a quote, a number before a
dot (`Fits`).
-/

namespace Backbone.Orm.RawQueryBuilder

open Sql

variable {params : List QueryValue} {t : List (Fill.Piece Char)} {v : QueryValue} (n : ℕ)

/-! ## Values -/

/-- A text, an integer, a boolean or null. -/
def Simple : QueryValue → Prop
  | .float _ | .uuid _ | .timestamp _ => False
  | .text _ | .integer _ | .boolean _ | .null => True

/-- The tokens that denote a value. -/
def denoted : QueryValue → List (Tok ℕ)
  | .text s => [.str s.toList]
  | .integer (.ofNat n) => [.word (Nat.toDigits 10 n)]
  | .integer (.negSucc n) => [.sym ['-'], .word (Nat.toDigits 10 (n + 1))]
  | .boolean true => [.word "true".toList]
  | .boolean false => [.word "false".toList]
  | .null => [.word "NULL".toList]
  | .float s | .uuid s | .timestamp s => (tokens s.toList).getD []

theorem isWordChar_of_mem_toDigits {n : ℕ} {c : Char} (h : c ∈ Nat.toDigits 10 n) :
    isWordChar c := by
  have hdigit := Nat.isDigit_of_mem_toDigits (by decide) (by decide) h
  simp [isWordChar, Char.isAlphanum, hdigit]

theorem toList_ofNat :
    (QueryValue.replacement (.integer (.ofNat n))).toList = Nat.toDigits 10 n := by
  change (toString n).toList = _
  simp

theorem toList_negSucc :
    (QueryValue.replacement (.integer (.negSucc n))).toList = '-' :: Nat.toDigits 10 (n + 1) := by
  change ("-" ++ toString (n + 1)).toList = _
  simp

/-- A number in decimal is one token. -/
theorem lexes_digits : Lexes (Nat.toDigits 10 n) [.word (Nat.toDigits 10 n)] :=
  lexes_word Nat.toDigits_ne_nil fun _ hc => isWordChar_of_mem_toDigits hc

/-- The literal of a value denotes it, whatever characters a text has. -/
theorem tokens_replacement (h : Simple v) : tokens v.replacement.toList = some (denoted v) := by
  cases v with
  | text s =>
    have hopen : start '\'' = (.str false [], []) := by decide
    simp [tokens, QueryValue.replacement, lex_append, lex, step, hopen, lex_quoted, close, denoted]
  | integer n =>
    cases n with
    | ofNat n =>
      rw [toList_ofNat]
      exact lexes_digits n
    | negSucc n =>
      have hminus : tokens ['-'] = some [.sym ['-']] := by decide
      have hmeets : Meets ['-'] (Nat.toDigits 10 (n + 1)) := by
        obtain ⟨d, ds, hd⟩ := List.exists_cons_of_ne_nil (Nat.toDigits_ne_nil (b := 10) (n := n + 1))
        refine ⟨d, by simp [hd], cuts_sym_of_isWordChar ['-'] ?_⟩
        exact isWordChar_of_mem_toDigits (n := n + 1) (by simp [hd])
      have hdigits : tokens (Nat.toDigits 10 (n + 1)) = _ := lexes_digits (n + 1)
      have hall := hmeets.tokens_append
      rw [hminus, hdigits] at hall
      rw [toList_negSucc]
      exact hall
  | boolean b => cases b <;> rfl
  | null => rfl
  | float f => exact h.elim
  | uuid u => exact h.elim
  | timestamp ts => exact h.elim

/-- A literal begins with no dollar sign. -/
theorem replacement_head (h : Simple v) : ∃ c cs, v.replacement.toList = c :: cs ∧ c ≠ '$' := by
  cases v with
  | text s => exact ⟨'\'', quoted s.toList ++ ['\''], by simp [QueryValue.replacement], by decide⟩
  | integer n =>
    cases n with
    | ofNat n =>
      obtain ⟨d, ds, hd⟩ := List.exists_cons_of_ne_nil (Nat.toDigits_ne_nil (b := 10) (n := n))
      refine ⟨d, ds, by rw [toList_ofNat, hd], ?_⟩
      rintro rfl
      exact absurd (isWordChar_of_mem_toDigits (n := n) (c := '$') (by simp [hd])) (by decide)
    | negSucc n => exact ⟨'-', Nat.toDigits 10 (n + 1), toList_negSucc n, by decide⟩
  | boolean b => cases b <;> exact ⟨_, _, rfl, by decide⟩
  | null => exact ⟨_, _, rfl, by decide⟩
  | float f => exact h.elim
  | uuid u => exact h.elim
  | timestamp ts => exact h.elim

/-! ## Templates -/

/-- An SQL text cut at its placeholders, which stand outside of literals and have numbers from 1 to
`n`. -/
structure Written (t : List (Fill.Piece Char)) (n : ℕ) : Prop where
  /-- Every placeholder starts a token, and ends where the next one starts. -/
  seams : (t.map (Fill.Piece.at dollar (literalOf []) 0)).IsChain Meets
  texts : ∀ cs, .text cs ∈ t → ∀ ts, tokens cs = some ts → holes ts = []
  numbers : ∀ k, .hole k ∈ t → 1 ≤ k ∧ k ≤ n

/-- Every literal starts a token where its placeholder stood, and ends where the next one starts. -/
def Fits (t : List (Fill.Piece Char)) (params : List QueryValue) : Prop :=
  (t.map (Fill.Piece.at dollar (literalOf params) params.length)).IsChain Meets

instance (t : List (Fill.Piece Char)) (params : List QueryValue) : Decidable (Fits t params) :=
  inferInstanceAs (Decidable (List.IsChain _ _))

/-- The placeholder `k + 1` occurs at most once, and its text is not read in front of it once the
placeholders up to `k` are replaced. -/
def Clear (t : List (Fill.Piece Char)) (params : List QueryValue) : Prop :=
  ∀ k < params.length, Fill.Ready dollar (literalOf params) k t

instance (t : List (Fill.Piece Char)) (params : List QueryValue) : Decidable (Clear t params) :=
  inferInstanceAs (Decidable (∀ k < params.length, Fill.Ready dollar (literalOf params) k t))

/-- The tokens of a literal for those of a placeholder. -/
def bound (params : List QueryValue) : Tok ℕ → List (Tok ℕ)
  | .hole k => denoted (params.getD (k - 1) .null)
  | tok => [tok]

/-- Every placeholder of the template is replaced by the literal of its value and nothing else is
changed, and the text is the parameterised statement with the values for its placeholders. -/
structure Inlines (t : List (Fill.Piece Char)) (params : List QueryValue) : Prop where
  text : ((new (sqlText t)).bindMany params).build.1 = inlined params params.length t
  statement : tokens ((new (sqlText t)).bindMany params).build.1.toList =
    (tokens ((new (sqlText t)).bindMany params).buildParameterized.1.toList).map
      (List.flatMap (bound params))

theorem flatMap_bound {ts : List (Tok ℕ)} (h : holes ts = []) (params : List QueryValue) :
    ts.flatMap (bound params) = ts := by
  induction ts with
  | nil => rfl
  | cons tok ts ih =>
    rw [holes_cons, List.append_eq_nil_iff] at h
    rw [List.flatMap_cons, ih h.2]
    cases tok with
    | hole k => cases h.1
    | _ => rfl

theorem simple_getD (h : ∀ v ∈ params, Simple v) (k : ℕ) : Simple (params.getD k .null) := by
  by_cases hk : k < params.length
  · have hget : params.getD k .null = params[k] := by simp [hk]
    rw [hget]
    exact h _ (List.getElem_mem hk)
  · have hget : params.getD k .null = .null := by
      simp [List.getElem?_eq_none (Nat.le_of_not_lt hk)]
    rw [hget]
    trivial

theorem literalOf_head (h : ∀ v ∈ params, Simple v) (k : ℕ) :
    ∃ c cs, literalOf params k = c :: cs ∧ c ≠ dollar.sigil :=
  replacement_head (simple_getD h (k - 1))

/-- Before any value is written, the text does not depend on the values. -/
theorem stage_zero (f g : ℕ → List Char) (t : List (Fill.Piece Char)) :
    Fill.stage dollar f 0 t = Fill.stage dollar g 0 t := by
  induction t with
  | nil => rfl
  | cons x t ih =>
    rw [Fill.stage_cons, Fill.stage_cons, ih]
    cases x with
    | text cs => rfl
    | hole k =>
      have hnone : ¬ (1 ≤ k ∧ k ≤ 0) := by omega
      rw [Fill.Piece.at, Fill.Piece.at, if_neg hnone, if_neg hnone]

theorem toList_sqlText (t : List (Fill.Piece Char)) (f : ℕ → List Char) :
    (sqlText t).toList = Fill.stage dollar f 0 t := by
  rw [sqlText, inlined, String.toList_ofList]
  exact stage_zero _ f t

/-- The tokens of the pieces, once each literal is in its place. -/
theorem tokensAll_inlined (htexts : ∀ cs, .text cs ∈ t → ∀ ts, tokens cs = some ts → holes ts = [])
    (hnumbers : ∀ k, .hole k ∈ t → 1 ≤ k ∧ k ≤ params.length) (hv : ∀ v ∈ params, Simple v) :
    tokensAll (t.map (Fill.Piece.at dollar (literalOf params) params.length)) =
      (tokensAll (t.map (Fill.Piece.at dollar (literalOf []) 0))).map
        (List.flatMap (bound params)) := by
  induction t with
  | nil => rfl
  | cons x t ih =>
    have hrest := ih (fun cs hcs => htexts cs (List.mem_cons_of_mem x hcs))
      fun k hk => hnumbers k (List.mem_cons_of_mem x hk)
    have hone : tokens (x.at dollar (literalOf params) params.length) =
        (tokens (x.at dollar (literalOf []) 0)).map (List.flatMap (bound params)) := by
      cases x with
      | text cs =>
        change tokens cs = (tokens cs).map _
        cases hts : tokens cs with
        | none => rfl
        | some ts =>
          rw [Option.map_some, flatMap_bound (htexts cs List.mem_cons_self ts hts)]
      | hole k =>
        have hk := hnumbers k List.mem_cons_self
        have hzero : ¬ (1 ≤ k ∧ k ≤ 0) := by omega
        rw [Fill.Piece.at, if_pos hk, Fill.Piece.at, if_neg hzero, mark_dollar, lexes_hole k,
          literalOf, tokens_replacement (simple_getD hv _)]
        simp [bound]
    rw [List.map_cons, List.map_cons, tokensAll, tokensAll, hone, hrest]
    cases tokens (x.at dollar (literalOf []) 0) with
    | none => rfl
    | some ts => cases tokensAll (t.map (Fill.Piece.at dollar (literalOf []) 0)) <;> simp

/-- Behind a placeholder the text ends, or goes on with neither a digit nor another placeholder. -/
theorem Written.spaced {n : ℕ} (h : Written t n) : Fill.Spaced dollar t := by
  intro u k v ht
  cases v with
  | nil => exact .inl rfl
  | cons x w =>
    right
    have hseams := h.seams
    rw [ht, List.map_append, List.map_cons, List.map_cons] at hseams
    have hmeets := (List.isChain_cons_cons.mp hseams.right_of_append).1
    have hk := (h.numbers k (ht ▸ List.mem_append_right u List.mem_cons_self)).1
    have hzero : ¬ (1 ≤ k ∧ k ≤ 0) := by omega
    rw [Fill.Piece.at, if_neg hzero, mark_dollar] at hmeets
    obtain ⟨c, hc, hcuts⟩ := hmeets
    rw [lex_holeText] at hcuts
    obtain ⟨hdigit, hdollar⟩ := of_cuts_hole hcuts
    cases x with
    | text cs =>
      obtain ⟨cs, rfl⟩ := List.head?_eq_some_iff.mp hc
      refine ⟨c, cs, w, rfl, hdollar, fun j hj => ?_⟩
      rw [Nat.isDigit_of_mem_toDigits (by decide) (by decide) hj] at hdigit
      cases hdigit
    | hole j =>
      -- Two placeholders in a row are no token.
      have hj := h.numbers j (ht ▸ List.mem_append_right u (by simp))
      have hzero : ¬ (1 ≤ j ∧ j ≤ 0) := by omega
      rw [Fill.Piece.at, if_neg hzero] at hc
      obtain rfl : '$' = c := by simpa [Fill.Marks.mark, dollar] using hc
      exact absurd rfl hdollar

/-! ## The inlined query -/

section Build

variable {t : List (Fill.Piece Char)} {params : List QueryValue}

/-- The text after the first `k` values, as the loop of the library. -/
theorem build_take {k : ℕ} (hk : k ≤ params.length) :
    ((new (sqlText t)).bindMany (params.take k)).build.1 = String.ofList
      (Fill.filled dollar (literalOf params) k (Fill.stage dollar (literalOf params) 0 t)) := by
  rw [build_eq_filled _ _ hk, toList_sqlText t (literalOf params)]

theorem build_all : ((new (sqlText t)).bindMany params).build.1 = String.ofList
    (Fill.filled dollar (literalOf params) params.length
      (Fill.stage dollar (literalOf params) 0 t)) := by
  have h := build_take (t := t) (Nat.le_refl params.length)
  rwa [List.take_length] at h

/-- Each step replaces its own placeholder, everywhere and nothing else, when the placeholders are
clear. -/
theorem steps_iff (hv : ∀ v ∈ params, Simple v) :
    (∀ k ≤ params.length, ((new (sqlText t)).bindMany (params.take k)).build.1 =
      inlined params k t) ↔ Clear t params := by
  rw [Clear, ← Fill.filled_eq_stage_iff (literalOf_head hv)]
  refine forall₂_congr fun k hk => ?_
  rw [build_take hk, inlined, String.ofList_inj]

/-- Clear placeholders whose literals fit are inlined. -/
theorem inlines_of_clear (hw : Written t params.length) (hv : ∀ v ∈ params, Simple v)
    (hclear : Clear t params) (hfits : Fits t params) : Inlines t params := by
  have htext : ((new (sqlText t)).bindMany params).build.1 = inlined params params.length t := by
    have h := (steps_iff hv).mpr hclear params.length (Nat.le_refl _)
    rwa [List.take_length] at h
  refine ⟨htext, ?_⟩
  have hparam : ((new (sqlText t)).bindMany params).buildParameterized.1 = sqlText t := by
    rw [bindMany_eq]
    rfl
  rw [htext, hparam, inlined, String.toList_ofList, toList_sqlText t (literalOf []), Fill.stage,
    Fill.stage, List.flatMap_def, List.flatMap_def, tokens_flatten hfits, tokens_flatten hw.seams]
  exact tokensAll_inlined hw.texts hw.numbers hv

/-- Where every placeholder occurs and the inlined text contains none, nothing but clear placeholders
are inlined. -/
theorem clear_of_inlines (hw : Written t params.length) (hv : ∀ v ∈ params, Simple v)
    (hall : ∀ k < params.length, .hole (k + 1) ∈ t)
    (hclean : ∀ k < params.length, ¬ holeText (k + 1) <:+: (inlined params params.length t).toList)
    (h : Inlines t params) : Clear t params := by
  have htext := h.text
  rw [build_all, inlined, String.ofList_inj] at htext
  simp only [inlined, String.toList_ofList] at hclean
  exact Fill.ready_of_filled_eq (literalOf_head hv) le_of_name_prefix hw.spaced hall hclean htext

/-- Step by step, `build` replaces every occurrence of the next placeholder and nothing else exactly
when the placeholders are clear. Clear placeholders whose literals fit give the parameterised
statement. Where every placeholder occurs and no value or quoted text looks like one, the text that
is built is right only for clear placeholders. -/
theorem build_inlines_iff (hw : Written t params.length) (hv : ∀ v ∈ params, Simple v) :
    ((∀ k ≤ params.length, ((new (sqlText t)).bindMany (params.take k)).build.1 =
        inlined params k t) ↔ Clear t params) ∧
      (Clear t params → Fits t params → Inlines t params) ∧
      ((∀ k < params.length, .hole (k + 1) ∈ t) →
        (∀ k < params.length, ¬ holeText (k + 1) <:+: (inlined params params.length t).toList) →
        Inlines t params → Clear t params) :=
  ⟨steps_iff hv, inlines_of_clear hw hv, clear_of_inlines hw hv⟩

end Build

/-- Two placeholders, the second one first, and a text that looks like the other placeholder. -/
def lookup : List (Fill.Piece Char) :=
  [.text "SELECT * FROM users WHERE name = ".toList, .hole 2, .text " AND age > ".toList, .hole 1]

theorem written_lookup : Written lookup 2 := by
  refine ⟨by decide, fun cs hcs ts hts => ?_, fun k hk => ?_⟩
  · simp only [lookup, List.mem_cons, Fill.Piece.text.injEq, reduceCtorEq, List.not_mem_nil,
      or_false, false_or] at hcs
    rcases hcs with rfl | rfl <;> cases hts <;> rfl
  · simp only [lookup, List.mem_cons, Fill.Piece.hole.injEq, reduceCtorEq, List.not_mem_nil,
      or_false, false_or] at hk
    omega

theorem inlines_lookup : Inlines lookup [.integer (-5), .text "it's $1"] := by
  have hw : Written lookup ([.integer (-5), .text "it's $1"] : List QueryValue).length :=
    written_lookup
  exact (build_inlines_iff hw (by simp [Simple])).2.1 (by decide) (by decide)

/-- A value that looks like a placeholder is taken for one. -/
def pair : List (Fill.Piece Char) :=
  [.text "SELECT ".toList, .hole 1, .text ", ".toList, .hole 2]

theorem written_pair : Written pair 2 := by
  refine ⟨by decide, fun cs hcs ts hts => ?_, fun k hk => ?_⟩
  · simp only [pair, List.mem_cons, Fill.Piece.text.injEq, reduceCtorEq, List.not_mem_nil,
      or_false, false_or] at hcs
    rcases hcs with rfl | rfl <;> cases hts <;> rfl
  · simp only [pair, List.mem_cons, Fill.Piece.hole.injEq, reduceCtorEq, List.not_mem_nil,
      or_false, false_or] at hk
    omega

theorem not_inlines_pair :
    Written pair 2 ∧
      ((new (sqlText pair)).bindMany [.text "$2", .text "x"]).build.1 = "SELECT ''x'', $2" ∧
      ¬ Inlines pair [.text "$2", .text "x"] := by
  refine ⟨written_pair, by decide, fun h => ?_⟩
  have htext := h.text
  revert htext
  decide

end Backbone.Orm.RawQueryBuilder
