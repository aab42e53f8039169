import Mathlib.Algebra.Group.Int.Defs
import Mathlib.Algebra.Group.Nat.Defs

/-!
# The workflow's values and compiled expressions

Reference: `backbone-core/src/workflow/expr.rs`.

The engine stores an instance's variables as JSON and evaluates compiled expression trees over them.
This module has the JSON values, the trees, what an expression reads (`Scope`), the truth of a
value, and the canonical texts a wait is matched on.

The engine's own laws hold whatever an expression evaluates to, so the engine takes the evaluator
from its environment (`Engine.Env`) and this module stops at the trees.
-/

namespace Backbone.Workflow

/-- A JSON number as `serde_json` keeps it: a 64-bit integer, or the bits of an `f64`. -/
inductive Number where
  | int (n : ℤ)
  | float (bits : UInt64)
deriving DecidableEq, Repr

/-- A JSON value. -/
inductive Value where
  | null
  | bool (b : Bool)
  | num (n : Number)
  | str (s : String)
  | arr (items : List Value)
  | obj (fields : List (String × Value))
deriving Repr

mutual
/-- Values are compared field by field, floats by their bits. -/
def Value.decEq : (v w : Value) → Decidable (v = w)
  | .null, .null => isTrue rfl
  | .bool a, .bool b => decidable_of_iff (a = b) (by simp)
  | .num a, .num b => decidable_of_iff (a = b) (by simp)
  | .str a, .str b => decidable_of_iff (a = b) (by simp)
  | .arr a, .arr b => @decidable_of_iff _ (a = b) (by simp) (decEqItems a b)
  | .obj a, .obj b => @decidable_of_iff _ (a = b) (by simp) (decEqFields a b)
  | .null, .bool _ | .null, .num _ | .null, .str _ | .null, .arr _ | .null, .obj _
  | .bool _, .null | .bool _, .num _ | .bool _, .str _ | .bool _, .arr _ | .bool _, .obj _
  | .num _, .null | .num _, .bool _ | .num _, .str _ | .num _, .arr _ | .num _, .obj _
  | .str _, .null | .str _, .bool _ | .str _, .num _ | .str _, .arr _ | .str _, .obj _
  | .arr _, .null | .arr _, .bool _ | .arr _, .num _ | .arr _, .str _ | .arr _, .obj _
  | .obj _, .null | .obj _, .bool _ | .obj _, .num _ | .obj _, .str _ | .obj _, .arr _ =>
    isFalse (by simp)

def decEqItems : (v w : List Value) → Decidable (v = w)
  | [], [] => isTrue rfl
  | [], _ :: _ | _ :: _, [] => isFalse (by simp)
  | a :: v, b :: w =>
    @decidable_of_iff _ (a = b ∧ v = w) (by simp)
      (@instDecidableAnd _ _ (a.decEq b) (decEqItems v w))

def decEqFields : (v w : List (String × Value)) → Decidable (v = w)
  | [], [] => isTrue rfl
  | [], _ :: _ | _ :: _, [] => isFalse (by simp)
  | (k, a) :: v, (l, b) :: w =>
    @decidable_of_iff _ (k = l ∧ a = b ∧ v = w) (by simp [and_assoc])
      (@instDecidableAnd _ _ (instDecidableEqString k l)
        (@instDecidableAnd _ _ (a.decEq b) (decEqFields v w)))
end

instance : DecidableEq Value := Value.decEq

namespace Value

/-- `Value::get` with a key: the field of an object, nothing of anything else. -/
def get? (v : Value) (key : String) : Option Value :=
  match v with
  | obj fields => (fields.find? (·.1 == key)).map (·.2)
  | _ => none

/-- `Value::get(key).unwrap_or(&Value::Null)`. -/
def getOrNull (v : Value) (key : String) : Value := (v.get? key).getD null

/-- `Map::insert` on an object's fields: the key's value is replaced, or the key is added. -/
def insertField (fields : List (String × Value)) (key : String) (v : Value) :
    List (String × Value) :=
  if fields.any (·.1 == key) then
    fields.map fun f => if f.1 == key then (key, v) else f
  else fields ++ [(key, v)]

section Insert

variable (fields : List (String × Value)) (key : String) (v : Value)

theorem find?_replaced_away {name : String} (h : key ≠ name) :
    (fields.map fun f => if f.1 == key then (key, v) else f).find? (·.1 == name) =
      fields.find? (·.1 == name) := by
  induction fields with
  | nil => rfl
  | cons field fields ih =>
    rw [List.map_cons, List.find?_cons, List.find?_cons, ih]
    by_cases hfield : field.1 = key
    · have hname : (key == name) = false := beq_false_of_ne h
      rw [if_pos (beq_iff_eq.mpr hfield), hfield, hname]
    · rw [if_neg (mt beq_iff_eq.mp hfield)]

theorem find?_replaced (h : fields.any (·.1 == key)) :
    (fields.map fun f => if f.1 == key then (key, v) else f).find? (·.1 == key) =
      some (key, v) := by
  induction fields with
  | nil => cases h
  | cons field fields ih =>
    rw [List.map_cons, List.find?_cons]
    by_cases hfield : field.1 = key
    · rw [if_pos (beq_iff_eq.mpr hfield), beq_self_eq_true]
    · have hbeq : (field.1 == key) = false := beq_false_of_ne hfield
      rw [List.any_cons, hbeq, Bool.false_or] at h
      rw [if_neg (mt beq_iff_eq.mp hfield), hbeq]
      exact ih h

theorem get?_insertField (name : String) :
    (obj (insertField fields key v)).get? name =
      if key = name then some v else (obj fields).get? name := by
  unfold insertField get?
  by_cases hname : key = name
  · subst hname
    by_cases hany : fields.any (·.1 == key)
    · simp only [if_pos hany, find?_replaced fields key v hany, if_true, Option.map_some]
    · have hnone : fields.find? (·.1 == key) = none := by
        rw [List.find?_eq_none]
        rw [List.any_eq_true] at hany
        exact fun f hf hkey => hany ⟨f, hf, hkey⟩
      simp [if_neg hany, hnone]
  · by_cases hany : fields.any (·.1 == key)
    · simp only [if_pos hany, find?_replaced_away fields key v hname, if_neg hname]
    · simp [if_neg hany, hname]

end Insert

/-- `if let Some(map) = value.as_object_mut() { map.insert(key, v) }`. -/
def insertIfObject (value : Value) (key : String) (v : Value) : Value :=
  match value with
  | obj fields => obj (insertField fields key v)
  | other => other

def isNull : Value → Bool
  | null => true
  | _ => false

def isObject : Value → Bool
  | obj _ => true
  | _ => false

def asStr : Value → Option String
  | str s => some s
  | _ => none

end Value

/-! ## Numbers

`f64` enters only through three readings of its bits: whether it is zero, whether it is a whole
number below `9e15`, and its decimal text. The first two are computed here from the IEEE 754 fields;
the last is `serde_json`'s shortest text, taken as a parameter. -/

/-- Whether the float is `0.0` or `-0.0`. -/
def floatIsZero (bits : UInt64) : Bool := bits.toNat % 2 ^ 63 == 0

/-- The value of a float that is a whole number below `9e15` in absolute value
(`f.fract() == 0.0 && f.abs() < 9e15`, read as `f as i64`). -/
def floatWhole? (bits : UInt64) : Option ℤ :=
  let b := bits.toNat
  let negative := b / 2 ^ 63 == 1
  let exponent := b / 2 ^ 52 % 2 ^ 11
  let fraction := b % 2 ^ 52
  let signed (n : ℕ) : Option ℤ :=
    if n < 9000000000000000 then some (if negative then -(n : ℤ) else n) else none
  if exponent == 0 then (if fraction == 0 then signed 0 else none)
  else if exponent == 2 ^ 11 - 1 then none
  else
    let mantissa := 2 ^ 52 + fraction
    if 1075 ≤ exponent then
      -- Past `2 ^ 53` every float is whole; nothing below `9e15` needs a shift of more than one bit.
      if exponent ≤ 1076 then signed (mantissa * 2 ^ (exponent - 1075)) else none
    else if mantissa % 2 ^ (1075 - exponent) == 0 then signed (mantissa / 2 ^ (1075 - exponent))
    else none

/-- Whether `v` counts as true: not `null`, `false`, `0` or `""`. -/
def truthy : Value → Bool
  | .null => false
  | .bool b => b
  | .num (.int n) => n != 0
  | .num (.float bits) => !floatIsZero bits
  | .str s => !s.isEmpty
  | .arr _ => true
  | .obj _ => true

/-! ## Texts -/

/-- One character of a JSON string, escaped as `serde_json` escapes it. -/
def jsonChar (c : Char) : List Char :=
  let hex (n : ℕ) : Char := (Nat.toDigits 16 n).head!
  match c with
  | '"' => ['\\', '"']
  | '\\' => ['\\', '\\']
  | '\n' => ['\\', 'n']
  | '\r' => ['\\', 'r']
  | '\t' => ['\\', 't']
  | '\x08' => ['\\', 'b']
  | '\x0c' => ['\\', 'f']
  | c => if c.toNat < 32 then ['\\', 'u', '0', '0', hex (c.toNat / 16), hex (c.toNat % 16)] else [c]

/-- A JSON string literal. -/
def jsonString (s : String) : String := String.ofList ('"' :: s.toList.flatMap jsonChar ++ ['"'])

section Texts

-- `serde_json`'s text of a float.
variable (floatText : UInt64 → String)

/-- The text of a number. -/
def Number.text : Number → String
  | .int n => toString n
  | .float bits => floatText bits

mutual
/-- The compact JSON text of a value. -/
def Value.text : Value → String
  | .null => "null"
  | .bool b => if b then "true" else "false"
  | .num n => n.text floatText
  | .str s => jsonString s
  | .arr items => "[" ++ String.intercalate "," (textItems items) ++ "]"
  | .obj fields => "\x7b" ++ String.intercalate "," (textFields fields) ++ "\x7d"

def textItems : List Value → List String
  | [] => []
  | v :: vs => v.text :: textItems vs

def textFields : List (String × Value) → List String
  | [] => []
  | (k, v) :: fs => (jsonString k ++ ":" ++ v.text) :: textFields fs
end

/-- The text of a value inside a larger template: strings as they are, `null` as nothing. -/
def textOf : Value → String
  | .null => ""
  | .str s => s
  | other => other.text floatText

/-- The canonical text of a value as a wait key: strings as they are, `null` as `null`, a whole
number without a fraction.

An integer prints its own digits on both branches of the source: below `9e15` it is exact as an
`f64`, and past it the source prints the number itself. -/
def canonical : Value → String
  | .str s => s
  | .num (.int n) => toString n
  | .num (.float bits) =>
    match floatWhole? bits with
    | some n => toString n
    | none => floatText bits
  | other => other.text floatText

/-- The key a wait is matched on: the canonical text of each value, in the order given, as a JSON
array. -/
def waitKey (values : List Value) : String :=
  "[" ++ String.intercalate "," (values.map fun v => jsonString (canonical floatText v)) ++ "]"

end Texts

/-! ## Compiled expressions -/

/-- Where a path starts. -/
inductive Root where
  | context | event | result | error | config | steps
deriving DecidableEq, Repr

/-- One step of a path. -/
inductive Seg where
  | key (name : String)
  | index (n : ℕ)
deriving DecidableEq, Repr

/-- A binary operator. -/
inductive BinOp where
  | eq | ne | lt | le | gt | ge | and | or | add | sub | mul | div | mod
deriving DecidableEq, Repr

/-- A compiled expression. -/
inductive Expr where
  | lit (v : Value)
  | dur (secs : ℤ)
  | now
  | path (root : Root) (path : List Seg)
  | not (e : Expr)
  | neg (e : Expr)
  | bin (op : BinOp) (l r : Expr)
  | coalesce (l r : Expr)
  | ite (c t e : Expr)
  | array (items : List Expr)
  | mem (l r : Expr) (negate : Bool)
  | method (obj : Expr) (name : String) (args : List Expr)
  | call (name : String) (args : List Expr)
deriving Repr

/-- A piece of a template. -/
inductive Part where
  | text (s : String)
  | expr (e : Expr)
deriving Repr

/-- A string with holes. -/
abbrev Template := List Part

/-- A value of a step's parameters: a literal, a template, or a map or list of them. -/
inductive Tpl where
  | lit (v : Value)
  | template (t : Template)
  | map (entries : List (String × Tpl))
  | list (items : List Tpl)
deriving Repr

/-- A duration: fixed, or a template evaluated when it is needed. -/
inductive Dur where
  | secs (s : ℤ)
  | tpl (t : Template)
deriving Repr

/-- An instant, in microseconds: what a `timestamptz` column holds. -/
abbrev Time := ℤ

/-- What an expression reads. -/
structure Scope where
  context : Value
  event : Value
  result : Value
  error : Value
  config : Value
  /-- The names of the steps that completed. -/
  completed : List String
  now : Time

end Backbone.Workflow
