import Backbone.Lib.Panics
import Backbone.Lib.Text
import Backbone.Workflow.WaitKeys

/-!
# The evaluator

An expression is evaluated over a scope and answers a value or an error. The evaluator calls the
workflow's declared functions and makes fresh identifiers, so it threads whatever state these have.

Where the source would panic the model panics: the `unreachable!` of a path's root and of the
operators that short-circuit, the negation of a duration, and chrono's arithmetic out of range.

Reference: `backbone-core/src/workflow/expr.rs`.
-/

namespace Backbone.Workflow

/-! ## What the evaluator calls -/

/-- What chrono does with instants. -/
structure Chrono (Instant : Type) where
  /-- The instant of a number of microseconds. -/
  ofMicros : Time → Instant
  /-- `DateTime::parse_from_rfc3339`, in UTC. -/
  parseRfc3339 : String → Option Instant
  /-- `to_rfc3339_opts` with microseconds and a `Z`. -/
  toRfc3339 : Instant → String
  /-- `DateTime::cmp`. -/
  cmp : Instant → Instant → Ordering
  /-- `checked_add_signed` of a whole number of seconds: nothing where `+` is out of range. -/
  checkedAdd : Instant → ℤ → Option Instant

/-- The functions a workflow declares and the fresh identifiers, over the state they have. -/
structure Funcs (σ : Type) where
  /-- `serde_json`'s text of a float. -/
  floatText : UInt64 → String
  /-- `Uuid::new_v4`. -/
  newV4 : σ → String × σ
  /-- Call the declared function. -/
  call : String → List Value → σ → Except String (Value × σ)

/-- `i64::MIN` and one past `i64::MAX`. -/
def i64Bound : ℤ := 2 ^ 63

/-- `-n`, which overflows at `i64::MIN`. -/
def negI64 (n : ℤ) : Option ℤ := if n = -i64Bound then none else some (-n)

/-- The seconds a `Duration` can have: `i64::MAX / 1000`. -/
def maxDurationSecs : ℕ := 9223372036854775

/-- `Duration::seconds`, which panics out of its range. -/
def durationSeconds (secs : ℤ) : Option ℤ :=
  if secs.natAbs ≤ maxDurationSecs then some secs else none

/-! ## Numbers -/

/-- `Number::as_f64`. -/
def Number.toFloat : Number → Float
  | .int n => Float.ofInt n
  | .float bits => Float.ofBits bits

/-- `Number::as_i64`. -/
def Number.asI64 : Number → Option ℤ
  | .int n => if n < i64Bound then some n else none
  | .float _ => none

def number : Value → Option Float
  | .num n => some n.toFloat
  | _ => none

/-- A whole number below `9e15` as an integer, any other finite one as a float. -/
def numValue (f : Float) : Value :=
  match floatWhole? f.toBits with
  | some n => .num (.int n)
  | none => if f.isFinite then .num (.float f.toBits) else .null

/-- `x % y` of two floats. -/
def remainder (x y : Float) : Float := Float.ofBits (Binary64.rem x.toBits y.toBits)

example : remainder (Float.ofInt 15 / Float.ofInt 2) (Float.ofInt (-2)) =
    Float.ofInt 3 / Float.ofInt 2 := by
  decide +kernel

/-! ## Paths, methods and durations -/

/-- The value a path leads to from `cur`. -/
def walk : Value → List Seg → Value
  | cur, [] => cur
  | .obj fields, .key k :: path =>
    match (Value.obj fields).get? k with
    | some v => walk v path
    | none => .null
  | .arr items, .index i :: path =>
    match items[i]? with
    | some v => walk v path
    | none => .null
  | _, _ :: _ => .null

/-- Whether the step of `steps.<name>.completed` has completed. -/
def readSteps (completed : List String) : List Seg → Value
  | [.key name, .key field] =>
    if field == "completed" then .bool (completed.contains name) else .null
  | _ => .null

/-- The value a path starts at; `steps` has none. -/
def Root.value (scope : Scope) : Root → Option Value
  | .context => some scope.context
  | .event => some scope.event
  | .result => some scope.result
  | .error => some scope.error
  | .config => some scope.config
  | .steps => none

def readPath {σ : Type} (root : Root) (path : List Seg) (scope : Scope) : Comp σ Value :=
  if root == .steps then pure (readSteps scope.completed path)
  else do
    let cur ← Comp.orPanic (root.value scope)
    pure (walk cur path)

/-- `l in r`: membership of an array, a substring of a string. -/
def contains (hay needle : Value) : Bool :=
  match hay with
  | .arr items => items.any fun i => jsonEq i needle
  | .str s => needle.asStr.any (Text.containsText s)
  | _ => false

/-- `.length` of a value. -/
def lengthOf : Value → ℕ
  | .str s => s.length
  | .arr items => items.length
  | .obj fields => fields.length
  | _ => 0

/-- A test of two strings, false of anything else. -/
def textTest (test : String → String → Bool) (recv : Value) (args : List Value) : Bool :=
  match recv.asStr, args.head?.bind Value.asStr with
  | some s, some p => test s p
  | _, _ => false

def method {σ : Type} (recv : Value) (name : String) (args : List Value) : Comp σ Value :=
  if name == "length" || name == "len" then pure (.num (.int (lengthOf recv)))
  else if name == "contains" || name == "includes" then
    pure (.bool (contains recv (args.head?.getD .null)))
  else if name == "starts_with" then pure (.bool (textTest Text.startsWith recv args))
  else if name == "ends_with" then
    pure (.bool (textTest (fun s p => p.toList.isSuffixOf s.toList) recv args))
  else Comp.fail ("method `." ++ name ++ "` is not part of the workflow expression set")

/-- `str::parse` of decimal digits as an `i64`. -/
def parseDigits (digits : List Char) : Option ℤ :=
  let n := digits.foldl (fun n c => 10 * n + (c.toNat - '0'.toNat)) 0
  if digits.isEmpty || i64Bound ≤ (n : ℤ) then none else some n

/-- The seconds of a duration's unit. -/
def unitSeconds (unit : String) : Option ℤ :=
  if unit == "s" then some 1
  else if unit == "m" then some 60
  else if unit == "h" then some 3600
  else if unit == "d" then some 86400
  else if unit == "w" then some 604800
  else none

/-- Read `30s`, `15m`, `24h`, `7d`, `2w`, or a bare number of seconds, as seconds. -/
def parseDuration (text : String) : Option ℤ :=
  let t := (Text.trim text).toList
  if !t.isEmpty && t.all Char.isDigit then parseDigits t
  else if t.isEmpty then none
  else do
    let (digits, unit) := t.span Char.isDigit
    let n ← parseDigits digits
    let secs ← unitSeconds (String.ofList unit)
    if n * secs < i64Bound then some (n * secs) else none

example : parseDuration " 15m " = some 900 := by decide +kernel

/-! ## Evaluation -/

section Evaluator

variable {Instant σ : Type} (C : Chrono Instant) (F : Funcs σ)

def timeText (t : Instant) : String := C.toRfc3339 t

def parseTime (v : Value) : Option Instant := v.asStr.bind C.parseRfc3339

/-- How two values compare: as numbers, else as times, else as texts. -/
def ordering (l r : Value) : Option Ordering :=
  match number l, number r with
  | some x, some y => x.toModel.compare y.toModel
  | _, _ =>
    match parseTime C l, parseTime C r with
    | some x, some y => some (C.cmp x y)
    | _, _ =>
      match l.asStr, r.asStr with
      | some x, some y => some (compare x y)
      | _, _ => none

/-- The answer of a comparison operator. -/
def BinOp.accepts : BinOp → Option Ordering → Bool
  | _, none => false
  | .lt, some o => o.isLT
  | .le, some o => o.isLE
  | .gt, some o => o.isGT
  | _, some o => o.isGE

/-- A time moved by a duration literal. -/
def moveTime (op : BinOp) (t : Instant) (secs : ℤ) : Comp σ Instant := do
  let secs ← Comp.orPanic (if op == .add then some secs else negI64 secs)
  let delta ← Comp.orPanic (durationSeconds secs)
  Comp.orPanic (C.checkedAdd t delta)

/-- `+` and `-` of anything but a time and a duration literal. -/
def sum (op : BinOp) (l r : Value) : Comp σ Value :=
  match op, l, r with
  | .add, .str a, .str b => pure (.str (a ++ b))
  | op, l, r =>
    match number l, number r with
    | some x, some y => pure (numValue (if op == .add then x + y else x - y))
    | _, _ => Comp.fail ("`" ++ (if op == .add then "+" else "-") ++ "` needs two numbers")

/-- `*`, `/` and `%`. -/
def product (op : BinOp) (l r : Value) : Comp σ Value :=
  match number l, number r with
  | some x, some y =>
    if op != .mul && y == Float.ofInt 0 then Comp.fail "division by zero"
    else pure (numValue (match op with
      | .mul => x * y
      | .div => x / y
      | _ => remainder x y))
  | _, _ => Comp.fail "arithmetic needs two numbers"

/-- `+` and `-`. -/
def addOrSub (op : BinOp) (l r : Value) (right : Expr) : Comp σ Value :=
  match parseTime C l, right with
  | some t, .dur secs => do
    let moved ← moveTime C op t secs
    pure (.str (timeText C moved))
  | _, _ => sum op l r

def binary (op : BinOp) (l r : Value) (right : Expr) : Comp σ Value :=
  match op with
  | .eq => pure (.bool (jsonEq l r))
  | .ne => pure (.bool (!jsonEq l r))
  | .lt | .le | .gt | .ge => pure (.bool (op.accepts (ordering C l r)))
  | .add | .sub => addOrSub C op l r right
  | .mul | .div | .mod => product op l r
  | .and | .or => Comp.panic

/-- A call of `name` on its arguments. -/
def callFunc (name : String) (vals : List Value) : Comp σ Value :=
  if name == "new_uuid" then fun s => .ok (.str (F.newV4 s).1, (F.newV4 s).2)
  else if name == "coalesce" then pure ((vals.find? fun v => !v.isNull).getD .null)
  else if name == "len" then method (vals.head?.getD .null) "length" []
  else Comp.ofExcept (F.call name vals)

variable (scope : Scope)

mutual
/-- Evaluate an expression over the scope. -/
def eval : Expr → Comp σ Value
  | .lit v => pure v
  | .dur secs => pure (.num (.int secs))
  | .now => pure (.str (timeText C (C.ofMicros scope.now)))
  | .path root path => readPath root path scope
  | .not e => do
    let v ← eval e
    pure (.bool (!truthy v))
  | .neg e => do
    let v ← eval e
    Comp.orFail "`-` needs a number" ((number v).map fun n => numValue (-n))
  | .bin .and l r => do
    let left ← eval l
    if !truthy left then pure (.bool false)
    else do
      let right ← eval r
      pure (.bool (truthy right))
  | .bin .or l r => do
    let left ← eval l
    if truthy left then pure (.bool true)
    else do
      let right ← eval r
      pure (.bool (truthy right))
  | .bin op l r => do
    let left ← eval l
    let right ← eval r
    binary C op left right r
  | .coalesce l r => do
    let left ← eval l
    if left.isNull then eval r else pure left
  | .ite c t e => do
    let cond ← eval c
    if truthy cond then eval t else eval e
  | .array items => do
    let out ← evalAll items
    pure (.arr out)
  | .mem l r negate => do
    let needle ← eval l
    let hay ← eval r
    pure (.bool (contains hay needle != negate))
  | .method obj name args => do
    let recv ← eval obj
    let vals ← evalAll args
    method recv name vals
  | .call name args => do
    let vals ← evalAll args
    callFunc F name vals

/-- Evaluate expressions one after the other. -/
def evalAll : List Expr → Comp σ (List Value)
  | [] => pure []
  | e :: es => do
    let v ← eval e
    let vs ← evalAll es
    pure (v :: vs)
end

/-- Evaluate an expression and read the answer as a condition. -/
def holds (e : Expr) : Comp σ Bool := do
  let v ← eval C F scope e
  pure (truthy v)

/-- The text of a template so far, and one more part. -/
def renderPart (out : String) : Part → Comp σ String
  | .text s => pure (out ++ s)
  | .expr e => do
    let v ← eval C F scope e
    pure (out ++ textOf F.floatText v)

/-- Render a template: one hole is that expression's value, anything else is text. -/
def renderTemplate : Template → Comp σ Value
  | [.expr e] => eval C F scope e
  | parts => do
    let out ← parts.foldlM (renderPart C F scope) ""
    pure (.str out)

mutual
/-- Render a parameter value. -/
def render : Tpl → Comp σ Value
  | .lit v => pure v
  | .template t => renderTemplate C F scope t
  | .map entries => do
    let fields ← renderEntries [] entries
    pure (.obj fields)
  | .list items => do
    let out ← renderAll items
    pure (.arr out)

/-- Render the entries of a map into the fields so far. -/
def renderEntries (fields : List (String × Value)) :
    List (String × Tpl) → Comp σ (List (String × Value))
  | [] => pure fields
  | (k, t) :: entries => do
    let v ← render t
    renderEntries (Value.insertField fields k v) entries

def renderAll : List Tpl → Comp σ (List Value)
  | [] => pure []
  | t :: ts => do
    let v ← render t
    let vs ← renderAll ts
    pure (v :: vs)
end

/-- Render a duration: seconds, or a template read as a duration. -/
def renderDuration : Dur → Comp σ ℤ
  | .secs s => pure s
  | .tpl t => do
    let v ← renderTemplate C F scope t
    match v with
    | .num n =>
      Comp.orFail ("`" ++ n.text F.floatText ++ "` is not a whole number of seconds") n.asI64
    | .str s =>
      Comp.orFail ("`" ++ s ++ "` is not a duration (use 30s, 15m, 24h, 7d)") (parseDuration s)
    | other => Comp.fail ("`" ++ other.text F.floatText ++ "` is not a duration")

end Evaluator

end Backbone.Workflow
