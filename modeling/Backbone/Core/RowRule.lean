import Backbone.Lib.KeyedOrder
import Backbone.Lib.Text
import Mathlib.Algebra.Order.Ring.Unbundled.Rat
import Mathlib.Data.String.Basic

/-!
# Comparison in a row rule

The values a compiled row rule compares. Two texts that both read as decimals are compared as decimals
and any other two by their bytes, which for UTF-8 is the order of their characters; so on texts the
comparison is the keyed one, with a decimal's value as its key.

Floating point numbers, `rust_decimal` and the parsers of times are a parameter. A decimal is known by
its value, which is what its `Ord` compares.

Reference: `backbone-core/src/row_rule.rs`.
-/

namespace Backbone.RowRule

open Text KeyedOrder

/-! ## Values -/

/-- What a rule relies on: `f64` with its `partial_cmp`, and the parsers. -/
structure Platform where
  F64 : Type
  partialCmp : F64 → F64 → Option Ordering
  parseF64 : String → Option F64
  /-- `rust_decimal::Decimal::from_str`. -/
  parseDecimal : String → Option ℚ
  /-- `DateTime::parse_from_rfc3339`, in nanoseconds. -/
  parseRfc3339 : String → Option ℤ
  /-- `NaiveDate::parse_from_str` with `%Y-%m-%d`, at midnight. -/
  parseDate : String → Option ℤ

/-- `Val`. -/
inductive Val (P : Platform) where
  | null
  | bool (b : Bool)
  | num (n : P.F64)
  | text (s : String)
  | list (items : List (Val P))
  | time (t : ℤ)

namespace Val

variable {P : Platform}

/-- `Val::num`. -/
def number : Val P → Option P.F64
  | .num n => some n
  | .text s => P.parseF64 (trim s)
  | _ => none

/-- `Val::time`. -/
def instant : Val P → Option ℤ
  | .time t => some t
  | .text s => (P.parseRfc3339 s).or (P.parseDate s)
  | _ => none

/-- `Val::truth`. -/
def truth : Val P → Option Bool
  | .bool b => some b
  | _ => none

def isTime : Val P → Bool
  | .time _ => true
  | _ => false

end Val

/-! ## Decimals -/

/-- An integer part: digits, without a leading zero. -/
def intOk (int : String) : Bool :=
  !int.toList.isEmpty && int.toList.all Char.isDigit && (int == "0" || int.toList.head? != some '0')

/-- A fraction: none, or digits. -/
def fracOk (frac : Option String) : Bool :=
  frac.all fun f => !f.toList.isEmpty && f.toList.all Char.isDigit

/-- The parts of a decimal around its point. -/
def decimalParts (digits : String) : String × Option String :=
  match splitOnce digits '.' with
  | some (i, f) => (i, some f)
  | none => (digits, none)

variable {P : Platform} {x y a b : String}

/-- `decimal`: the value of a text written the way a decimal serializes. -/
def decimal (P : Platform) (s : String) : Option ℚ :=
  let digits := (stripPrefix s "-").getD s
  let (int, frac) := decimalParts digits
  if intOk int && fracOk frac then P.parseDecimal s else none

/-! ## Comparison -/

/-- The arm of `order` for two texts. -/
def orderTexts (P : Platform) (x y : String) : Ordering :=
  match decimal P x, decimal P y with
  | some v, some w => compare v w
  | _, _ => compare x y

/-- The last arms of `order`: a time against anything, and two numbers. -/
def orderRead (a b : Val P) : Option Ordering :=
  if a.isTime || b.isTime then a.instant.bind fun s => b.instant.map fun t => compare s t
  else a.number.bind fun m => b.number.bind fun n => P.partialCmp m n

/-- `order`. -/
def order (a b : Val P) : Option Ordering :=
  match a, b with
  | .null, _ => none
  | _, .null => none
  | .text x, .text y => some (orderTexts P x y)
  | .bool x, .bool y => some (compare x y)
  | a, b => orderRead a b

/-- `compare`. -/
def comparison (a b : Val P) (test : Ordering → Bool) : Val P :=
  match order a b with
  | some o => .bool (test o)
  | none => .null

/-- `eq`. -/
def eq (a b : Val P) : Val P := comparison a b Ordering.isEq

/-- `lt`. -/
def lt (a b : Val P) : Val P := comparison a b Ordering.isLT

/-- `gt`. -/
def gt (a b : Val P) : Val P := comparison a b Ordering.isGT

/-- The loop of `in_list`. -/
def scanList (a : Val P) : List (Val P) → Bool → Val P
  | [], unknown => if unknown then .null else .bool false
  | item :: items, unknown =>
    match eq a item with
    | .bool true => .bool true
    | .null => scanList a items true
    | _ => scanList a items unknown

/-- `in_list`. -/
def inList (a list : Val P) : Val P :=
  match list with
  | .list items =>
    match a with
    | .null => .null
    | a => scanList a items false
  | _ => .null

/-- `not`. -/
def not (a : Val P) : Val P :=
  match a.truth with
  | some b => .bool !b
  | none => .null

/-- `not_in`. -/
def notIn (a list : Val P) : Val P := not (inList a list)

/-! ## Two texts -/

/-- The value of a decimal is its key. -/
theorem orderTexts_eq (x y : String) : orderTexts P x y = keyedCompare (decimal P) x y := by
  unfold orderTexts keyedCompare
  generalize decimal P x = v
  generalize decimal P y = w
  cases v with
  | none => rfl
  | some v =>
    cases w with
    | none => rfl
    | some w => rfl

theorem order_text (x y : String) :
    order (.text x) (.text y : Val P) = some (keyedCompare (decimal P) x y) := by
  rw [← orderTexts_eq]
  rfl

theorem eq_text (x y : String) :
    eq (.text x) (.text y : Val P) = .bool (keyedCompare (decimal P) x y).isEq := by
  rw [eq, comparison, order_text]

theorem lt_text (x y : String) :
    lt (.text x) (.text y : Val P) = .bool (keyedCompare (decimal P) x y).isLT := by
  rw [lt, comparison, order_text]

theorem gt_text (x y : String) :
    gt (.text x) (.text y : Val P) = .bool (keyedCompare (decimal P) x y).isGT := by
  rw [gt, comparison, order_text]

theorem eq_text_iff :
    eq (.text x) (.text y : Val P) = .bool true ↔ keyedCompare (decimal P) x y = .eq := by
  rw [eq_text, Val.bool.injEq, Ordering.isEq_iff_eq_eq]

theorem lt_text_iff :
    lt (.text x) (.text y : Val P) = .bool true ↔ keyedCompare (decimal P) x y = .lt := by
  rw [lt_text, Val.bool.injEq, Ordering.isLT_iff_eq_lt]

/-- Two texts that compare equal compare alike with every text. -/
theorem eq_text_congr (h : eq (.text a) (.text b : Val P) = .bool true) (s : String) :
    eq (.text a) (.text s : Val P) = eq (.text b) (.text s) := by
  rw [eq_text_iff] at h
  rw [eq_text, eq_text, Val.bool.injEq, Bool.eq_iff_iff, Ordering.isEq_iff_eq_eq,
    Ordering.isEq_iff_eq_eq]
  exact ⟨keyedCompare_eq_trans (keyedCompare_eq_symm h), keyedCompare_eq_trans h⟩

/-- And with every other value, if they read as the same number and the same time. -/
theorem eq_congr (h : eq (.text a) (.text b : Val P) = .bool true) {item : Val P}
    (hnum : ∀ n, item = .num n → (.text a : Val P).number = (.text b : Val P).number)
    (htime : ∀ t, item = .time t → (.text a : Val P).instant = (.text b : Val P).instant) :
    eq (.text a) item = eq (.text b) item := by
  cases item with
  | text s => exact eq_text_congr h s
  | null => rfl
  | bool v => simp [eq, comparison, order, orderRead, Val.isTime, Val.number]
  | list items => simp [eq, comparison, order, orderRead, Val.isTime, Val.number]
  | num n => simp [eq, comparison, order, orderRead, Val.isTime, hnum n rfl]
  | time t => simp [eq, comparison, order, orderRead, Val.isTime, htime t rfl]

theorem scanList_congr {a b : Val P} {items : List (Val P)}
    (h : ∀ item ∈ items, eq a item = eq b item) (unknown : Bool) :
    scanList a items unknown = scanList b items unknown := by
  induction items generalizing unknown with
  | nil => rfl
  | cons item items ih =>
    have hrest := ih fun x hx => h x (List.mem_cons_of_mem _ hx)
    rw [scanList, scanList, h item List.mem_cons_self]
    simp only [hrest]

/-- On a set of texts, less-than is transitive and keeps to equality. -/
structure TextOrder (P : Platform) (S : Set String) : Prop where
  trans : ∀ a ∈ S, ∀ b ∈ S, ∀ c ∈ S, lt (.text a) (.text b : Val P) = .bool true →
    lt (.text b) (.text c : Val P) = .bool true → lt (.text a) (.text c : Val P) = .bool true
  congr : ∀ a ∈ S, ∀ b ∈ S, ∀ c ∈ S, eq (.text a) (.text b : Val P) = .bool true →
    lt (.text b) (.text c : Val P) = .bool true → lt (.text a) (.text c : Val P) = .bool true

theorem textOrder_iff {S : Set String} : TextOrder P S ↔ OrderOn (decimal P) S := by
  constructor
  · rintro ⟨htrans, hcongr⟩
    simp only [lt_text_iff, eq_text_iff] at htrans hcongr
    exact ⟨htrans, hcongr⟩
  · rintro ⟨htrans, hcongr⟩
    constructor
    · simpa only [lt_text_iff] using htrans
    · simpa only [lt_text_iff, eq_text_iff] using hcongr

/-- Of two texts exactly one comparison is true, equality of texts is an equivalence, a list answers
alike for texts that compare equal, and on a set of texts the comparison is an order exactly when no
text of it, itself no decimal, lies between two decimals that compare the other way. -/
theorem text_comparison (P : Platform) :
    (∀ a b : String,
      (lt (.text a) (.text b : Val P) = .bool true ∧ eq (.text a) (.text b : Val P) = .bool false ∧
          gt (.text a) (.text b : Val P) = .bool false) ∨
        (lt (.text a) (.text b : Val P) = .bool false ∧ eq (.text a) (.text b : Val P) = .bool true ∧
          gt (.text a) (.text b : Val P) = .bool false) ∨
        (lt (.text a) (.text b : Val P) = .bool false ∧ eq (.text a) (.text b : Val P) = .bool false ∧
          gt (.text a) (.text b : Val P) = .bool true)) ∧
    Equivalence (fun a b : String => eq (.text a) (.text b : Val P) = .bool true) ∧
    (∀ S : Set String,
      TextOrder P S ↔ ∀ x ∈ S, ∀ z ∈ S, ∀ y ∈ S, ¬ Crossed (decimal P) x z y) ∧
    ∀ (a b : String) (items : List (Val P)), eq (.text a) (.text b : Val P) = .bool true →
      (∀ n, .num n ∈ items → (.text a : Val P).number = (.text b : Val P).number) →
      (∀ t, .time t ∈ items → (.text a : Val P).instant = (.text b : Val P).instant) →
      inList (.text a) (.list items) = inList (.text b) (.list items) := by
  refine ⟨?_, ?_, ?_, ?_⟩
  · intro a b
    rw [lt_text, eq_text, gt_text]
    cases keyedCompare (decimal P) a b <;> simp [Ordering.isLT, Ordering.isEq, Ordering.isGT]
  · simp only [eq_text_iff]
    exact ⟨keyedCompare_eq_refl, keyedCompare_eq_symm, keyedCompare_eq_trans⟩
  · intro S
    rw [textOrder_iff, orderOn_iff]
  · intro a b items h hnum htime
    apply scanList_congr
    intro item hitem
    exact eq_congr h (fun n hn => hnum n (hn ▸ hitem)) fun t ht => htime t (ht ▸ hitem)

/-! ## A platform for short texts -/

/-- The value of a sign, digits and a fraction. -/
def readDecimal (s : String) : Option ℚ :=
  let (int, frac) := decimalParts ((stripPrefix s "-").getD s)
  let digits := int.toList ++ (frac.getD "").toList
  let value := mkRat (Nat.ofDigitChars 10 digits 0) (10 ^ (frac.getD "").toList.length)
  if digits.all Char.isDigit then
    some (if (stripPrefix s "-").isSome then -value else value)
  else none

/-- Numbers of few digits, which both kinds read exactly, and no times. -/
def shortPlatform : Platform where
  F64 := ℚ
  partialCmp m n := some (compare m n)
  parseF64 := readDecimal
  parseDecimal := readDecimal
  parseRfc3339 _ := none
  parseDate _ := none

theorem inList_zero :
    inList (.text "-0" : Val shortPlatform) (.list [.text "1", .text "0"]) =
      inList (.text "0") (.list [.text "1", .text "0"]) :=
  (text_comparison shortPlatform).2.2.2 "-0" "0" _
    (eq_text_iff.mpr (keyedCompare_eq_iff.mpr (.inr ⟨0, by decide, by decide⟩)))
    (by simp) (by simp)

/-- `"9"` is less than `"10"` as a decimal, `"10"` less than `"1a"` as a text, and `"9"` is not less than
`"1a"`. -/
theorem lt_not_transitive :
    ¬ ∀ a b c : String, lt (.text a) (.text b : Val shortPlatform) = .bool true →
      lt (.text b) (.text c : Val shortPlatform) = .bool true →
      lt (.text a) (.text c : Val shortPlatform) = .bool true := by
  intro h
  have hnine : decimal shortPlatform "9" = some 9 := by decide
  have hten : decimal shortPlatform "10" = some 10 := by decide
  have htext : decimal shortPlatform "1a" = none := by decide
  have hlt := h "9" "10" "1a"
  rw [lt_text_iff, lt_text_iff, lt_text_iff, keyedCompare_of_keys hnine hten,
    keyedCompare_of_right _ htext, keyedCompare_of_right _ htext, compare_lt_iff_lt,
    compare_lt_iff_lt, compare_lt_iff_lt] at hlt
  exact absurd (hlt (by decide) (by decide)) (by decide)

end Backbone.RowRule
