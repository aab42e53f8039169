import Backbone.Workflow.Expr
import Mathlib.Data.Fintype.Basic
import Mathlib.Tactic.FinCases

/-!
# The text of a JSON value tells the value

The compact text `serde_json` writes reads back in one way only: the first character tells the kind,
an escaped character ends before the next one begins, a number ends at the first character no number
has, and an array or an object at its own bracket. So values with one text are one value.

Of the text of a float only this is used: it is a number's text, of no integer, and of one float.

Reference: `backbone-core/src/workflow/expr.rs` (`canonical`, `wait_key`).
-/

namespace Backbone.Workflow

variable {r s : List Char} {c : Char} {n : ℤ}

/-! ## Integers -/

theorem natRepr_injective {m n : ℕ} (h : m.repr = n.repr) : m = n := by
  have hdigits := congrArg String.toList h
  rw [Nat.toList_repr, Nat.toList_repr] at hdigits
  have hvalue := congrArg (Nat.ofDigitChars 10 · 0) hdigits
  simpa using hvalue

/-- The characters numbers are written with. -/
def numberChar (c : Char) : Bool := c.isDigit || c == '-' || c == '+' || c == '.' || c == 'e'

theorem natRepr_digits {n : ℕ} (h : c ∈ n.repr.toList) : c.isDigit := by
  rw [Nat.toList_repr] at h
  exact Nat.isDigit_of_mem_toDigits (by decide) (by decide) h

theorem toList_minus (n : ℕ) : ("-" ++ n.repr).toList = '-' :: n.repr.toList := by
  rw [String.toList_append]
  rfl

theorem intText_injective {m : ℤ} (h : toString m = toString n) : m = n := by
  rw [Int.toString_eq_repr, Int.toString_eq_repr, Int.repr_eq_if, Int.repr_eq_if] at h
  have hminus : ∀ a b : ℕ, a.repr ≠ "-" ++ b.repr := by
    intro a b heq
    have hmem : '-' ∈ a.repr.toList := by
      rw [heq, toList_minus]
      exact List.mem_cons_self
    have hdigit := natRepr_digits hmem
    revert hdigit
    decide
  split at h <;> split at h
  · have := natRepr_injective h
    omega
  · exact absurd h (hminus _ _)
  · exact absurd h.symm (hminus _ _)
  · have hlist := congrArg String.toList h
    rw [toList_minus, toList_minus] at hlist
    have := natRepr_injective (String.toList_injective (List.cons.inj hlist).2)
    omega

theorem intText_digits (h : c ∈ (toString n).toList) : c.isDigit = true ∨ c = '-' := by
  rw [Int.toString_eq_repr, Int.repr_eq_if] at h
  split at h
  · exact .inl (natRepr_digits h)
  · rw [toList_minus] at h
    rcases List.mem_cons.mp h with rfl | h
    · exact .inr rfl
    · exact .inl (natRepr_digits h)

theorem intText_chars (h : c ∈ (toString n).toList) : numberChar c := by
  unfold numberChar
  rcases intText_digits h with hdigit | rfl
  · rw [hdigit]
    rfl
  · decide

theorem intText_ne_nil (n : ℤ) : (toString n).toList ≠ [] := by
  rw [Int.toString_eq_repr, Int.repr_eq_if]
  split
  · rw [Nat.toList_repr]
    exact Nat.toDigits_ne_nil
  · rw [toList_minus]
    exact List.cons_ne_nil _ _

/-! ## Floats -/

/-- What is known of `serde_json`'s text of a float: a number's text that no integer has, and the
shortest that reads back as the float. -/
structure FloatTexts (floatText : UInt64 → String) : Prop where
  injective : ∀ a b, floatText a = floatText b → a = b
  chars : ∀ a, ∀ c ∈ (floatText a).toList, numberChar c
  ne_nil : ∀ a, (floatText a).toList ≠ []
  notInteger : ∀ a (n : ℤ), floatText a ≠ toString n

section Texts

variable {floatText : UInt64 → String} {x y : Number} {c : Char} (t : String) (texts : List String)

theorem Number.text_injective (hfloat : FloatTexts floatText)
    (h : x.text floatText = y.text floatText) : x = y := by
  cases x with
  | int m =>
    cases y with
    | int n => rw [intText_injective h]
    | float b => exact absurd h.symm (hfloat.notInteger b m)
  | float a =>
    cases y with
    | int n => exact absurd h (hfloat.notInteger a n)
    | float b => rw [hfloat.injective a b h]

theorem Number.text_chars (hfloat : FloatTexts floatText) (x : Number)
    (h : c ∈ (x.text floatText).toList) : numberChar c := by
  cases x with
  | int n => exact intText_chars h
  | float a => exact hfloat.chars a c h

theorem Number.text_ne_nil (hfloat : FloatTexts floatText) (x : Number) :
    (x.text floatText).toList ≠ [] := by
  cases x with
  | int n => exact intText_ne_nil n
  | float a => exact hfloat.ne_nil a

/-! ## Strings -/

/-- The value of a hexadecimal digit in lower case. -/
def hexValue (c : Char) : ℕ := if c.isDigit then c.toNat - 48 else c.toNat - 87

/-- The character behind a backslash. -/
def unescaped (c : Char) : Char :=
  match c with
  | 'n' => '\n'
  | 'r' => '\r'
  | 't' => '\t'
  | 'b' => '\x08'
  | 'f' => '\x0c'
  | c => c

/-- Reads one escaped character. -/
def readChar : List Char → Option (Char × List Char)
  | [] => none
  | c :: cs =>
    if c = '\\' then
      match cs with
      | 'u' :: _ :: _ :: a :: b :: cs => some (Char.ofNat (16 * hexValue a + hexValue b), cs)
      | c :: cs => some (unescaped c, cs)
      | [] => none
    else some (c, cs)

theorem jsonChar_control (h : c.toNat < 32) (rest : List Char) :
    readChar (jsonChar c ++ rest) = some (c, rest) := by
  have hall : ∀ n : Fin 32, readChar (jsonChar (Char.ofNat n) ++ rest) =
      some (Char.ofNat n, rest) := by
    intro n
    fin_cases n <;> rfl
  have hchar := hall ⟨c.toNat, h⟩
  rwa [Char.ofNat_toNat] at hchar

theorem jsonChar_plain (h : ¬ c.toNat < 32) (hquote : c ≠ '"') (hslash : c ≠ '\\') :
    jsonChar c = [c] := by
  unfold jsonChar
  split
  case h_1 => exact absurd rfl hquote
  case h_2 => exact absurd rfl hslash
  case h_8 => exact if_neg h
  all_goals exact (h (by decide)).elim

/-- A character is read back whole, whatever comes behind it. -/
theorem readChar_jsonChar (c : Char) (rest : List Char) :
    readChar (jsonChar c ++ rest) = some (c, rest) := by
  by_cases hcontrol : c.toNat < 32
  · exact jsonChar_control hcontrol rest
  by_cases hquote : c = '"'
  · rw [hquote]
    rfl
  by_cases hslash : c = '\\'
  · rw [hslash]
    rfl
  rw [jsonChar_plain hcontrol hquote hslash, List.singleton_append]
  exact if_neg hslash

/-- No escaped character starts with a quote. -/
theorem jsonChar_head (c : Char) : ∃ d ds, jsonChar c = d :: ds ∧ d ≠ '"' := by
  unfold jsonChar
  split
  case h_8 hquote _ _ _ _ _ _ =>
    split
    · exact ⟨_, _, rfl, by decide⟩
    · exact ⟨c, [], rfl, hquote⟩
  all_goals exact ⟨_, _, rfl, by decide⟩

/-- The characters of a string end at the first quote that is not escaped. -/
theorem escaped_cancel {cs ds : List Char}
    (h : cs.flatMap jsonChar ++ '"' :: r = ds.flatMap jsonChar ++ '"' :: s) : cs = ds ∧ r = s := by
  induction cs generalizing ds with
  | nil =>
    cases ds with
    | nil => exact ⟨rfl, (List.cons.inj h).2⟩
    | cons d ds =>
      obtain ⟨e, es, hd, hne⟩ := jsonChar_head d
      rw [List.flatMap_cons, hd] at h
      exact absurd (List.cons.inj h).1.symm hne
  | cons c cs ih =>
    cases ds with
    | nil =>
      obtain ⟨e, es, hc, hne⟩ := jsonChar_head c
      rw [List.flatMap_cons, hc] at h
      exact absurd (List.cons.inj h).1 hne
    | cons d ds =>
      rw [List.flatMap_cons, List.flatMap_cons, List.append_assoc, List.append_assoc] at h
      have hread := congrArg readChar h
      rw [readChar_jsonChar, readChar_jsonChar, Option.some.injEq, Prod.mk.injEq] at hread
      obtain ⟨rfl, hrest⟩ := ih hread.2
      exact ⟨by rw [hread.1], hrest⟩

theorem toList_jsonString (s : String) (r : List Char) :
    (jsonString s).toList ++ r = '"' :: (s.toList.flatMap jsonChar ++ '"' :: r) := by
  unfold jsonString
  rw [String.toList_ofList]
  simp

theorem jsonString_cancel {s t : String} {r' : List Char}
    (h : (jsonString s).toList ++ r = (jsonString t).toList ++ r') : s = t ∧ r = r' := by
  rw [toList_jsonString, toList_jsonString] at h
  obtain ⟨hlist, hrest⟩ := escaped_cancel (List.cons.inj h).2
  exact ⟨String.toList_injective hlist, hrest⟩

/-! ## Numbers -/

/-- No number goes on here. -/
def Ended (r : List Char) : Prop := ∀ c ∈ r.head?, numberChar c = false

theorem takeWhile_ended {t : List Char} (ht : ∀ c ∈ t, numberChar c) (hr : Ended r) :
    (t ++ r).takeWhile numberChar = t ∧ (t ++ r).dropWhile numberChar = r := by
  have hnone : r.takeWhile numberChar = [] ∧ r.dropWhile numberChar = r := by
    cases r with
    | nil => exact ⟨rfl, rfl⟩
    | cons c r =>
      have hc := hr c rfl
      simp [hc]
  rw [List.takeWhile_append_of_pos ht, List.dropWhile_append_of_pos ht, hnone.1, hnone.2]
  exact ⟨List.append_nil t, rfl⟩

theorem number_cancel (hfloat : FloatTexts floatText) (hr : Ended r) (hs : Ended s)
    (h : (x.text floatText).toList ++ r = (y.text floatText).toList ++ s) : x = y ∧ r = s := by
  obtain ⟨hx, hxr⟩ := takeWhile_ended (fun c => x.text_chars hfloat (c := c)) hr
  obtain ⟨hy, hys⟩ := takeWhile_ended (fun c => y.text_chars hfloat (c := c)) hs
  refine ⟨x.text_injective hfloat (String.toList_injective ?_), ?_⟩
  · rw [← hx, h, hy]
  · rw [← hxr, h, hys]

/-! ## Lists of texts -/

/-- The texts behind the first, each behind a comma. -/
def commas (texts : List String) : List Char := texts.flatMap fun t => ',' :: t.toList

theorem toList_intercalate_cons :
    (String.intercalate "," (t :: texts)).toList = t.toList ++ commas texts := by
  induction texts generalizing t with
  | nil => simp [commas]
  | cons u texts ih =>
    rw [String.intercalate_cons_cons, String.toList_append, String.toList_append, ih]
    simp [commas]

theorem commas_cons (r : List Char) :
    commas (t :: texts) ++ r = ',' :: (t.toList ++ (commas texts ++ r)) := by
  simp [commas]

/-- A bracketed list of texts. -/
theorem toList_bracketed (left right : Char) (texts : List String) (r : List Char) :
    (String.singleton left ++ String.intercalate "," texts ++ String.singleton right).toList ++ r =
      left :: ((String.intercalate "," texts).toList ++ right :: r) := by
  simp

end Texts

/-! ## Kinds -/

/-- What holds of a value when it holds of its items or of its fields' values. -/
@[elab_as_elim]
theorem Value.induct {P : Value → Prop} (null : P .null) (bool : ∀ b, P (.bool b))
    (num : ∀ x, P (.num x)) (str : ∀ s, P (.str s))
    (arr : ∀ items : List Value, (∀ v ∈ items, P v) → P (.arr items))
    (obj : ∀ fields : List (String × Value), (∀ f ∈ fields, P f.2) → P (.obj fields)) :
    ∀ v, P v
  | .null => null
  | .bool b => bool b
  | .num x => num x
  | .str s => str s
  | .arr items => arr items fun v _ => Value.induct null bool num str arr obj v
  | .obj fields => obj fields fun f _ => Value.induct null bool num str arr obj f.2
termination_by v => sizeOf v
decreasing_by
  · rename_i hmem
    have := List.sizeOf_lt_of_mem hmem
    simp only [Value.arr.sizeOf_spec]
    omega
  · rename_i hmem
    have := List.sizeOf_lt_of_mem hmem
    have : sizeOf f = 1 + sizeOf f.1 + sizeOf f.2 := rfl
    simp only [Value.obj.sizeOf_spec]
    omega

/-- The kinds of JSON values. -/
inductive Kind where
  | null | bool | number | string | array | object
deriving DecidableEq

/-- The kind a text's first character tells. -/
def opening (c : Char) : Kind :=
  if numberChar c then .number
  else if c = '"' then .string
  else if c = '[' then .array
  else if c = '\x7b' then .object
  else if c = 'n' then .null
  else .bool

def Value.kind : Value → Kind
  | .null => .null
  | .bool _ => .bool
  | .num _ => .number
  | .str _ => .string
  | .arr _ => .array
  | .obj _ => .object

section Texts

variable {floatText : UInt64 → String} {v w : Value}

theorem toList_null : (Value.null.text floatText).toList = ['n', 'u', 'l', 'l'] := by
  rw [Value.text]
  decide

theorem toList_true : ((Value.bool true).text floatText).toList = ['t', 'r', 'u', 'e'] := by
  rw [Value.text]
  decide

theorem toList_false : ((Value.bool false).text floatText).toList = ['f', 'a', 'l', 's', 'e'] := by
  rw [Value.text]
  decide

theorem text_head (hfloat : FloatTexts floatText) (v : Value) :
    ∃ c cs, (v.text floatText).toList = c :: cs ∧ opening c = v.kind ∧ c ≠ ']' := by
  cases v with
  | null => exact ⟨_, _, toList_null, rfl, by decide⟩
  | bool b =>
    cases b with
    | true => exact ⟨_, _, toList_true, rfl, by decide⟩
    | false => exact ⟨_, _, toList_false, rfl, by decide⟩
  | num x =>
    obtain ⟨c, cs, hc⟩ := List.exists_cons_of_ne_nil (x.text_ne_nil hfloat)
    have hnumber : numberChar c := x.text_chars hfloat (hc ▸ List.mem_cons_self)
    refine ⟨c, cs, hc, if_pos hnumber, ?_⟩
    rintro rfl
    cases hnumber
  | str s =>
    have hs := toList_jsonString s []
    rw [List.append_nil] at hs
    exact ⟨_, _, hs, rfl, by decide⟩
  | arr items =>
    have harr := toList_bracketed '[' ']' (textItems floatText items) []
    rw [List.append_nil] at harr
    exact ⟨_, _, harr, rfl, by decide⟩
  | obj fields =>
    have hobj := toList_bracketed '\x7b' '\x7d' (textFields floatText fields) []
    rw [List.append_nil] at hobj
    exact ⟨_, _, hobj, rfl, by decide⟩

/-- Texts that agree as far as they go are of one kind. -/
theorem kind_of_text (hfloat : FloatTexts floatText)
    (h : (v.text floatText).toList ++ r = (w.text floatText).toList ++ s) : v.kind = w.kind := by
  obtain ⟨c, cs, hv, hkind, -⟩ := text_head hfloat v
  obtain ⟨d, ds, hw, hkind', -⟩ := text_head hfloat w
  rw [hv, hw] at h
  rw [← hkind, ← hkind', (List.cons.inj h).1]

theorem textItems_eq (items : List Value) :
    textItems floatText items = items.map (Value.text floatText) := by
  induction items with
  | nil => rfl
  | cons v items ih => rw [textItems, ih, List.map_cons]

/-- The text of one field. -/
def fieldText (floatText : UInt64 → String) (f : String × Value) : String :=
  jsonString f.1 ++ ":" ++ f.2.text floatText

theorem textFields_eq (fields : List (String × Value)) :
    textFields floatText fields = fields.map (fieldText floatText) := by
  induction fields with
  | nil => rfl
  | cons f fields ih => rw [textFields, ih, List.map_cons, fieldText]

theorem toList_fieldText (f : String × Value) (r : List Char) :
    (fieldText floatText f).toList ++ r =
      (jsonString f.1).toList ++ (':' :: ((f.2.text floatText).toList ++ r)) := by
  simp [fieldText]

/-! ## Lists that end at a bracket -/

/-- A text of an entry tells the entry, whatever comes behind it. -/
def Tells {α : Type} (entry : α → String) (x : α) : Prop :=
  ∀ (y : α) (r s : List Char), Ended r → Ended s →
    (entry x).toList ++ r = (entry y).toList ++ s → x = y ∧ r = s

section Bracketed

variable {α : Type} {entry : α → String} {right : Char} {xs ys : List α}

theorem ended_cons {c : Char} (hc : numberChar c = false) (r : List Char) : Ended (c :: r) := by
  rintro d ⟨⟩
  exact hc

/-- Behind an item comes a comma or the end of the list. -/
theorem ended_commas (texts : List String) (hright : numberChar right = false) (r : List Char) :
    Ended (commas texts ++ right :: r) := by
  cases texts with
  | nil => exact ended_cons hright r
  | cons t texts => exact ended_cons (c := ',') rfl _

theorem commas_cancel (hright : numberChar right = false) (hcomma : right ≠ ',')
    (hx : ∀ x ∈ xs, Tells entry x)
    (h : commas (xs.map entry) ++ right :: r = commas (ys.map entry) ++ right :: s) :
    xs = ys ∧ r = s := by
  induction xs generalizing ys with
  | nil =>
    cases ys with
    | nil => exact ⟨rfl, (List.cons.inj h).2⟩
    | cons y ys =>
      rw [List.map_cons, commas_cons] at h
      exact absurd (List.cons.inj h).1 hcomma
  | cons x xs ih =>
    cases ys with
    | nil =>
      rw [List.map_cons, commas_cons] at h
      exact absurd (List.cons.inj h).1.symm hcomma
    | cons y ys =>
      rw [List.map_cons, List.map_cons, commas_cons, commas_cons] at h
      obtain ⟨rfl, hrest⟩ := hx x List.mem_cons_self y _ _ (ended_commas _ hright r)
        (ended_commas _ hright s) (List.cons.inj h).2
      obtain ⟨rfl, htail⟩ := ih (fun z hz => hx z (List.mem_cons_of_mem _ hz)) hrest
      exact ⟨rfl, htail⟩

/-- No entry starts with the bracket. -/
def Opens (entry : α → String) (right : Char) : Prop :=
  ∀ x, ∃ c cs, (entry x).toList = c :: cs ∧ c ≠ right

/-- A bracketed list tells its entries, whatever comes behind the bracket. -/
theorem bracketed_cancel (hopens : Opens entry right) (hright : numberChar right = false)
    (hcomma : right ≠ ',') (hx : ∀ x ∈ xs, Tells entry x)
    (h : (String.intercalate "," (xs.map entry)).toList ++ right :: r =
      (String.intercalate "," (ys.map entry)).toList ++ right :: s) : xs = ys ∧ r = s := by
  cases xs with
  | nil =>
    cases ys with
    | nil => exact ⟨rfl, (List.cons.inj h).2⟩
    | cons y ys =>
      obtain ⟨c, cs, hc, hne⟩ := hopens y
      rw [List.map_cons, toList_intercalate_cons, hc] at h
      exact absurd (List.cons.inj h).1.symm hne
  | cons x xs =>
    cases ys with
    | nil =>
      obtain ⟨c, cs, hc, hne⟩ := hopens x
      rw [List.map_cons, toList_intercalate_cons, hc] at h
      exact absurd (List.cons.inj h).1 hne
    | cons y ys =>
      rw [List.map_cons, List.map_cons, toList_intercalate_cons, toList_intercalate_cons,
        List.append_assoc, List.append_assoc] at h
      apply commas_cancel hright hcomma hx
      rw [List.map_cons, List.map_cons, commas_cons, commas_cons]
      exact congrArg (',' :: ·) h

end Bracketed

/-! ## Values -/

theorem opens_text (hfloat : FloatTexts floatText) : Opens (Value.text floatText) ']' := by
  intro v
  obtain ⟨c, cs, hv, -, hne⟩ := text_head hfloat v
  exact ⟨c, cs, hv, hne⟩

theorem opens_fieldText : Opens (fieldText floatText) '\x7d' := by
  intro f
  have hf : (fieldText floatText f).toList ++ [] =
      (jsonString f.1).toList ++ (':' :: ((f.2.text floatText).toList ++ [])) :=
    toList_fieldText f []
  rw [List.append_nil, toList_jsonString] at hf
  exact ⟨_, _, hf, by decide⟩

theorem tells_fieldText {f : String × Value} (h : Tells (Value.text floatText) f.2) :
    Tells (fieldText floatText) f := by
  intro g r s hr hs heq
  rw [toList_fieldText, toList_fieldText] at heq
  obtain ⟨hkey, hrest⟩ := jsonString_cancel heq
  obtain ⟨hvalue, hend⟩ := h g.2 r s hr hs (List.cons.inj hrest).2
  exact ⟨Prod.ext hkey hvalue, hend⟩

/-- A text reads back in one way, whatever comes behind it. -/
theorem tells_text (hfloat : FloatTexts floatText) (v : Value) : Tells (Value.text floatText) v := by
  induction v using Value.induct with
  | null =>
    intro w r s _ _ h
    have hkind := kind_of_text hfloat h
    cases w <;> cases hkind
    exact ⟨rfl, List.append_cancel_left h⟩
  | bool a =>
    intro w r s _ _ h
    have hkind := kind_of_text hfloat h
    cases w <;> cases hkind
    rename_i b
    cases a <;> cases b
    · exact ⟨rfl, List.append_cancel_left h⟩
    · rw [toList_false, toList_true] at h
      cases (List.cons.inj h).1
    · rw [toList_false, toList_true] at h
      cases (List.cons.inj h).1
    · exact ⟨rfl, List.append_cancel_left h⟩
  | num x =>
    intro w r s hr hs h
    have hkind := kind_of_text hfloat h
    cases w <;> cases hkind
    obtain ⟨rfl, hrest⟩ := number_cancel hfloat hr hs h
    exact ⟨rfl, hrest⟩
  | str a =>
    intro w r s _ _ h
    have hkind := kind_of_text hfloat h
    cases w <;> cases hkind
    obtain ⟨rfl, hrest⟩ := jsonString_cancel h
    exact ⟨rfl, hrest⟩
  | arr items ih =>
    intro w r s _ _ h
    have hkind := kind_of_text hfloat h
    cases w <;> cases hkind
    rename_i items'
    have hlist := (toList_bracketed '[' ']' (textItems floatText items) r).symm.trans
      (h.trans (toList_bracketed '[' ']' (textItems floatText items') s))
    rw [textItems_eq, textItems_eq] at hlist
    obtain ⟨rfl, hrest⟩ := bracketed_cancel (opens_text hfloat) rfl (by decide) ih
      (List.cons.inj hlist).2
    exact ⟨rfl, hrest⟩
  | obj fields ih =>
    intro w r s _ _ h
    have hkind := kind_of_text hfloat h
    cases w <;> cases hkind
    rename_i fields'
    have hlist := (toList_bracketed '\x7b' '\x7d' (textFields floatText fields) r).symm.trans
      (h.trans (toList_bracketed '\x7b' '\x7d' (textFields floatText fields') s))
    rw [textFields_eq, textFields_eq] at hlist
    obtain ⟨rfl, hrest⟩ := bracketed_cancel opens_fieldText rfl (by decide)
      (fun f hf => tells_fieldText (ih f hf)) (List.cons.inj hlist).2
    exact ⟨rfl, hrest⟩

/-- Values with one text are one value. -/
theorem text_injective (hfloat : FloatTexts floatText)
    (h : v.text floatText = w.text floatText) : v = w := by
  have hlist : (v.text floatText).toList ++ [] = (w.text floatText).toList ++ [] := by rw [h]
  exact (tells_text hfloat v w [] [] (fun _ h => by cases h) (fun _ h => by cases h) hlist).1

end Texts

end Backbone.Workflow
