import Backbone.Lib.Binary64
import Backbone.Workflow.JsonText
import Backbone.Workflow.World

/-!
# What a wait key decides

A wait stores one text for its values, and an event resumes it when the same text is made of the
event's fields. The text tells the canonical texts of the values, one by one. Two strings have one
canonical text when they are equal, and two values that are no strings when they are equal in an
expression; but a string is its own canonical text, and so it stands for whatever value has it.

Numbers are compared as doubles in an expression and by their digits in a key. The two agree as long
as an integer is its own double.

Reference: `backbone-core/src/workflow/expr.rs` (`wait_key`, `canonical`, `json_eq`) and
`backbone-core/src/workflow/engine.rs` (`resume`).
-/

namespace Backbone.Workflow

open Binary64 (units unit ofInt magnitude)

/-! ## Equality in an expression -/

/-- Equality of `serde_json` numbers: integers as integers and floats as floats. -/
def Number.same : Number → Number → Bool
  | .int m, .int n => m == n
  | .float a, .float b => units a == units b
  | _, _ => false

mutual
/-- Equality of `serde_json` values. -/
def Value.same : Value → Value → Bool
  | .null, .null => true
  | .bool a, .bool b => a == b
  | .num x, .num y => x.same y
  | .str s, .str t => s == t
  | .arr v, .arr w => sameItems v w
  | .obj v, .obj w => sameFields v w
  | _, _ => false

def sameItems : List Value → List Value → Bool
  | [], [] => true
  | v :: vs, w :: ws => v.same w && sameItems vs ws
  | _, _ => false

def sameFields : List (String × Value) → List (String × Value) → Bool
  | [], [] => true
  | (k, v) :: vs, (l, w) :: ws => k == l && v.same w && sameFields vs ws
  | _, _ => false
end

/-- `as_f64`, counted in the smallest double. -/
def Number.asF64 : Number → ℤ
  | .int n => ofInt n * unit
  | .float bits => units bits

/-- `json_eq`: numbers as doubles, anything else as it is. -/
def jsonEq : Value → Value → Bool
  | .num x, .num y => x.asF64 == y.asF64
  | v, w => v.same w

/-! ## What a key can tell apart -/

/-- Values with one canonical text: equal, unless exactly one of them is a string. -/
def Alike (floatText : UInt64 → String) : Value → Value → Prop
  | .str s, .str t => s = t
  | .str s, w => s = canonical floatText w
  | v, .str t => canonical floatText v = t
  | v, w => jsonEq v w = true

/-- An integer that is its own double and prints as one. -/
def Number.exact : Number → Bool
  | .int n => n.natAbs < 9000000000000000
  | .float _ => true

mutual
/-- No negative zero in the value. -/
def Value.unsignedZeros : Value → Bool
  | .num (.float bits) => bits ≠ Binary64.negativeZero
  | .arr items => unsignedItems items
  | .obj fields => unsignedFields fields
  | _ => true

def unsignedItems : List Value → Bool
  | [] => true
  | v :: vs => v.unsignedZeros && unsignedItems vs

def unsignedFields : List (String × Value) → Bool
  | [] => true
  | f :: fs => f.2.unsignedZeros && unsignedFields fs
end

/-- The pairs on which the two equalities of values that are no strings agree: numbers whose integers
are exact, and values with no negative zero inside. -/
def Comparable : Value → Value → Bool
  | .num x, .num y => x.exact && y.exact
  | v, w => v.unsignedZeros && w.unsignedZeros

/-! ## Whole floats -/

/-- A whole number below `9e15` with its sign. -/
def signedBelow (negative : Bool) (n : ℕ) : Option ℤ :=
  if n < 9000000000000000 then some (if negative then -(n : ℤ) else n) else none

theorem ne_of_large {n m k : ℕ} (hn : 9000000000000000 ≤ n) (hk : k = n * unit)
    (hm : m < 9000000000000000) : k ≠ m * unit := by
  rw [hk]
  intro h
  have := Nat.eq_of_mul_eq_mul_right Binary64.unit_pos h
  omega

variable (bits : UInt64)

/-- The reading of a float as a whole number: its absolute value is that number of units, or no
number below `9e15`. -/
theorem floatWhole?_cases :
    (∃ n, magnitude bits = n * unit ∧ floatWhole? bits = signedBelow (Binary64.negative bits) n) ∨
    floatWhole? bits = none ∧ ∀ n < 9000000000000000, magnitude bits ≠ n * unit := by
  have hfields : floatWhole? bits =
      if Binary64.exponent bits == 0 then
        if Binary64.fraction bits == 0 then signedBelow (Binary64.negative bits) 0 else none
      else if Binary64.exponent bits == 2 ^ 11 - 1 then none
      else if 1075 ≤ Binary64.exponent bits then
        if Binary64.exponent bits ≤ 1076 then
          signedBelow (Binary64.negative bits)
            ((2 ^ 52 + Binary64.fraction bits) * 2 ^ (Binary64.exponent bits - 1075))
        else none
      else if (2 ^ 52 + Binary64.fraction bits) % 2 ^ (1075 - Binary64.exponent bits) == 0 then
        signedBelow (Binary64.negative bits)
          ((2 ^ 52 + Binary64.fraction bits) / 2 ^ (1075 - Binary64.exponent bits))
      else none := rfl
  rw [hfields]
  -- Past `2 ^ 53` the exponent alone makes the number too large.
  have hlarge : ∀ k, 1 ≤ k → 9000000000000000 ≤ (2 ^ 52 + Binary64.fraction bits) * 2 ^ k := by
    intro k hk
    have hpow : 2 ^ 1 ≤ 2 ^ k := Nat.pow_le_pow_right (by omega) hk
    calc 9000000000000000 ≤ 2 ^ 52 * 2 ^ 1 := by norm_num
      _ ≤ (2 ^ 52 + Binary64.fraction bits) * 2 ^ k :=
        Nat.mul_le_mul (Nat.le_add_right _ _) hpow
  by_cases hzero : Binary64.exponent bits = 0
  · rw [if_pos (beq_iff_eq.mpr hzero)]
    by_cases hfrac : Binary64.fraction bits = 0
    · rw [if_pos (beq_iff_eq.mpr hfrac)]
      refine .inl ⟨0, ?_, rfl⟩
      unfold magnitude
      rw [if_pos hzero, hfrac, Nat.zero_mul]
    · rw [if_neg (mt beq_iff_eq.mp hfrac)]
      refine .inr ⟨rfl, fun n _ h => ?_⟩
      have hlt := Binary64.magnitude_subnormal hzero
      have hmagnitude : magnitude bits = Binary64.fraction bits := if_pos hzero
      cases n with
      | zero => omega
      | succ n =>
        have : unit ≤ (n + 1) * unit := Nat.le_mul_of_pos_left unit (Nat.succ_pos n)
        omega
  rw [if_neg (mt beq_iff_eq.mp hzero)]
  by_cases htop : Binary64.exponent bits = 2 ^ 11 - 1
  · rw [if_pos (beq_iff_eq.mpr htop)]
    have hpoint : 1075 ≤ Binary64.exponent bits := by omega
    have hwhole := Binary64.magnitude_whole hpoint
    exact .inr ⟨rfl, fun n hn => ne_of_large (hlarge _ (by omega)) hwhole hn⟩
  rw [if_neg (mt beq_iff_eq.mp htop)]
  by_cases hpoint : 1075 ≤ Binary64.exponent bits
  · rw [if_pos hpoint]
    have hwhole := Binary64.magnitude_whole hpoint
    by_cases hshift : Binary64.exponent bits ≤ 1076
    · rw [if_pos hshift]
      exact .inl ⟨_, hwhole, rfl⟩
    · rw [if_neg hshift]
      exact .inr ⟨rfl, fun n hn => ne_of_large (hlarge _ (by omega)) hwhole hn⟩
  · rw [if_neg hpoint]
    have hiff := Binary64.magnitude_fraction hzero (not_le.mp hpoint)
    by_cases hmod : (2 ^ 52 + Binary64.fraction bits) % 2 ^ (1075 - Binary64.exponent bits) = 0
    · rw [if_pos (beq_iff_eq.mpr hmod)]
      exact .inl ⟨_, (hiff _).mpr (Nat.div_mul_cancel (Nat.dvd_of_mod_eq_zero hmod)).symm, rfl⟩
    · rw [if_neg (mt beq_iff_eq.mp hmod)]
      refine .inr ⟨rfl, fun n _ h => hmod ?_⟩
      rw [(hiff n).mp h]
      exact Nat.mul_mod_left _ _

theorem natAbs_units : (units bits).natAbs = magnitude bits := by
  unfold units
  split <;> omega

/-- A float read as a whole number has its value, and one read as none has the value of no whole
number below `9e15`. -/
theorem floatWhole?_eq_some {bits : UInt64} {m : ℤ} :
    floatWhole? bits = some m ↔ units bits = m * unit ∧ m.natAbs < 9000000000000000 := by
  rcases floatWhole?_cases bits with ⟨n, hn, hread⟩ | ⟨hread, hnone⟩
  · rw [hread]
    unfold signedBelow
    constructor
    · intro h
      split at h
      · rename_i hlt
        obtain rfl := Option.some.inj h
        unfold units
        rw [hn, Nat.cast_mul]
        split
        · exact ⟨(Int.neg_mul _ _).symm, (Int.natAbs_neg _).trans_lt hlt⟩
        · exact ⟨rfl, hlt⟩
      · cases h
    · rintro ⟨hunits, hlt⟩
      have habs := congrArg Int.natAbs hunits
      rw [natAbs_units, hn, Int.natAbs_mul, Int.natAbs_natCast] at habs
      obtain rfl := Nat.eq_of_mul_eq_mul_right Binary64.unit_pos habs
      rw [if_pos hlt, Option.some.injEq]
      have hunit : (unit : ℤ) ≠ 0 := Int.natCast_ne_zero.mpr Binary64.unit_pos.ne'
      have hsign : units bits =
          (if Binary64.negative bits then -(m.natAbs : ℤ) else m.natAbs) * unit := by
        unfold units
        rw [hn]
        split <;> push_cast <;> ring
      exact mul_right_cancel₀ hunit (hsign.symm.trans hunits)
  · rw [hread]
    refine iff_of_false (by simp) ?_
    rintro ⟨hunits, hlt⟩
    have habs := congrArg Int.natAbs hunits
    rw [natAbs_units, Int.natAbs_mul, Int.natAbs_natCast] at habs
    exact hnone _ hlt habs

theorem floatWhole?_eq_none {bits : UInt64} (h : floatWhole? bits = none) {m : ℤ}
    (hm : m.natAbs < 9000000000000000) : units bits ≠ m * unit := by
  intro hunits
  rw [floatWhole?_eq_some.mpr ⟨hunits, hm⟩] at h
  cases h

/-! ## Numbers -/

section Texts

variable {floatText : UInt64 → String} {n : ℤ}

theorem asF64_int (h : (Number.int n).exact) : (Number.int n).asF64 = n * unit := by
  have hlt := of_decide_eq_true h
  change ofInt n * (unit : ℤ) = n * unit
  rw [Binary64.ofInt_of_lt (by omega)]

theorem mul_unit_inj {m : ℤ} : m * (unit : ℤ) = n * unit ↔ m = n := by
  have hunit : (unit : ℤ) ≠ 0 := Int.natCast_ne_zero.mpr Binary64.unit_pos.ne'
  exact mul_left_inj' hunit

/-- An exact integer and a float have one canonical text exactly if they have one value. -/
theorem canonical_int_float (hfloat : FloatTexts floatText) {bits : UInt64}
    (hn : (Number.int n).exact) :
    canonical floatText (.num (.int n)) = canonical floatText (.num (.float bits)) ↔
      (Number.int n).asF64 = (Number.float bits).asF64 := by
  have hlt : n.natAbs < 9000000000000000 := of_decide_eq_true hn
  rw [asF64_int hn]
  unfold canonical Number.asF64
  simp only
  cases hwhole : floatWhole? bits with
  | some m =>
    simp only
    rw [(floatWhole?_eq_some.mp hwhole).1, mul_unit_inj]
    exact ⟨intText_injective, fun h => by rw [h]⟩
  | none =>
    simp only
    exact iff_of_false (fun h => hfloat.notInteger bits n h.symm)
      (fun h => floatWhole?_eq_none hwhole hlt h.symm)

theorem canonical_float (hfloat : FloatTexts floatText) {a b : UInt64} :
    canonical floatText (.num (.float a)) = canonical floatText (.num (.float b)) ↔
      (Number.float a).asF64 = (Number.float b).asF64 := by
  unfold canonical Number.asF64
  simp only
  cases ha : floatWhole? a with
  | some m =>
    obtain ⟨hunits, hlt⟩ := floatWhole?_eq_some.mp ha
    cases hb : floatWhole? b with
    | some n =>
      simp only
      rw [hunits, (floatWhole?_eq_some.mp hb).1, mul_unit_inj]
      exact ⟨intText_injective, fun h => by rw [h]⟩
    | none =>
      simp only
      rw [hunits]
      exact iff_of_false (fun h => hfloat.notInteger b m h.symm)
        (fun h => floatWhole?_eq_none hb hlt h.symm)
  | none =>
    cases hb : floatWhole? b with
    | some n =>
      obtain ⟨hunits, hlt⟩ := floatWhole?_eq_some.mp hb
      simp only
      rw [hunits]
      exact iff_of_false (hfloat.notInteger a n) (floatWhole?_eq_none ha hlt)
    | none =>
      simp only
      constructor
      · exact fun h => by rw [hfloat.injective a b h]
      · intro h
        have hzero : units a ≠ 0 := by
          have hne := floatWhole?_eq_none ha (m := 0) (by decide)
          rwa [zero_mul] at hne
        rw [Binary64.eq_of_units h hzero]

theorem canonical_num (hfloat : FloatTexts floatText) {x y : Number} (hx : x.exact)
    (hy : y.exact) :
    canonical floatText (.num x) = canonical floatText (.num y) ↔ x.asF64 = y.asF64 := by
  cases x with
  | int m =>
    cases y with
    | int n =>
      rw [asF64_int hx, asF64_int hy, mul_unit_inj]
      exact ⟨intText_injective, fun h => by rw [h]⟩
    | float b => exact canonical_int_float hfloat hx
  | float a =>
    cases y with
    | int n =>
      rw [eq_comm, canonical_int_float hfloat hy]
      exact eq_comm
    | float b => exact canonical_float hfloat

end Texts

/-! ## Values -/

theorem Number.same_refl (x : Number) : x.same x = true := by
  cases x <;> exact beq_self_eq_true _

theorem Number.eq_of_same {x y : Number} (hx : (Value.num x).unsignedZeros)
    (hy : (Value.num y).unsignedZeros) (h : x.same y = true) : x = y := by
  cases x with
  | int m =>
    cases y with
    | int n => rw [beq_iff_eq.mp h]
    | float b => cases h
  | float a =>
    cases y with
    | int n => cases h
    | float b =>
      have hunits : units a = units b := beq_iff_eq.mp h
      by_cases hzero : units a = 0
      · rw [Binary64.eq_zero_of_units hzero (of_decide_eq_true hx),
          Binary64.eq_zero_of_units (hunits ▸ hzero) (of_decide_eq_true hy)]
      · rw [Binary64.eq_of_units hunits hzero]

theorem Value.same_refl (v : Value) : v.same v = true := by
  induction v using Value.induct with
  | null => rfl
  | bool b => exact beq_self_eq_true b
  | num x => exact x.same_refl
  | str s => exact beq_self_eq_true s
  | arr items ih =>
    rw [Value.same]
    induction items with
    | nil => rfl
    | cons v items ihItems =>
      rw [sameItems, ih v List.mem_cons_self, ihItems fun w hw => ih w (List.mem_cons_of_mem _ hw)]
      rfl
  | obj fields ih =>
    rw [Value.same]
    induction fields with
    | nil => rfl
    | cons f fields ihFields =>
      rw [sameFields, ih f List.mem_cons_self,
        ihFields fun g hg => ih g (List.mem_cons_of_mem _ hg), beq_self_eq_true]
      rfl

/-- Without negative zeros, equal values are the same value. -/
theorem Value.eq_of_same {v w : Value} (hv : v.unsignedZeros) (hw : w.unsignedZeros)
    (h : v.same w = true) : v = w := by
  induction v using Value.induct generalizing w with
  | null => cases w <;> first | rfl | cases h
  | bool a =>
    cases w with
    | bool b => rw [beq_iff_eq.mp h]
    | _ => cases h
  | num x =>
    cases w with
    | num y => rw [Number.eq_of_same hv hw h]
    | _ => cases h
  | str s =>
    cases w with
    | str t => rw [beq_iff_eq.mp h]
    | _ => cases h
  | arr items ih =>
    cases w with
    | arr items' =>
      change unsignedItems items = true at hv
      change unsignedItems items' = true at hw
      change sameItems items items' = true at h
      congr 1
      induction items generalizing items' with
      | nil => cases items' <;> first | rfl | cases h
      | cons v items ihItems =>
        cases items' with
        | nil => cases h
        | cons w items' =>
          rw [unsignedItems, Bool.and_eq_true] at hv hw
          rw [sameItems, Bool.and_eq_true] at h
          rw [ih v List.mem_cons_self hv.1 hw.1 h.1, ihItems
            (fun u hu => ih u (List.mem_cons_of_mem _ hu)) items' hv.2 hw.2 h.2]
    | _ => cases h
  | obj fields ih =>
    cases w with
    | obj fields' =>
      change unsignedFields fields = true at hv
      change unsignedFields fields' = true at hw
      change sameFields fields fields' = true at h
      congr 1
      induction fields generalizing fields' with
      | nil => cases fields' <;> first | rfl | cases h
      | cons f fields ihFields =>
        cases fields' with
        | nil => cases h
        | cons g fields' =>
          rw [unsignedFields, Bool.and_eq_true] at hv hw
          rw [sameFields, Bool.and_eq_true, Bool.and_eq_true, beq_iff_eq] at h
          rw [Prod.ext h.1.1 (ih f List.mem_cons_self hv.1 hw.1 h.1.2), ihFields
            (fun e he => ih e (List.mem_cons_of_mem _ he)) fields' hv.2 hw.2 h.2]
    | _ => cases h

/-! ## Canonical texts -/

section Texts

variable {floatText : UInt64 → String} {v w : Value} {vs ws : List Value}

/-- Values that are neither strings nor both numbers, and have no negative zero inside, have one
canonical text exactly if they are equal. -/
theorem text_eq_iff_same (hfloat : FloatTexts floatText) (hv : v.unsignedZeros)
    (hw : w.unsignedZeros) : v.text floatText = w.text floatText ↔ v.same w = true := by
  constructor
  · intro h
    rw [text_injective hfloat h]
    exact w.same_refl
  · intro h
    rw [Value.eq_of_same hv hw h]

/-- The canonical text of a number is some number's text. -/
theorem canonical_num_text (x : Number) :
    ∃ y : Number, canonical floatText (.num x) = y.text floatText := by
  cases x with
  | int n => exact ⟨.int n, rfl⟩
  | float bits =>
    unfold canonical
    simp only
    cases floatWhole? bits with
    | some m => exact ⟨.int m, rfl⟩
    | none => exact ⟨.float bits, rfl⟩

/-- The canonical text of a number is the text of no value of another kind. -/
theorem canonical_num_ne (hfloat : FloatTexts floatText) (x : Number)
    (hw : w.kind ≠ .number) : canonical floatText (.num x) ≠ w.text floatText := by
  intro h
  obtain ⟨y, hy⟩ : ∃ y : Number, canonical floatText (.num x) = y.text floatText :=
    canonical_num_text x
  have htext : (Value.num y).text floatText = w.text floatText := by
    rw [← h, hy, Value.text]
  have hkind : (Value.num y).kind = w.kind := by
    refine kind_of_text hfloat (r := []) (s := []) ?_
    rw [htext]
  exact hw hkind.symm

theorem canonical_iff_alike (hfloat : FloatTexts floatText)
    (h : Comparable v w = true) :
    canonical floatText v = canonical floatText w ↔ Alike floatText v w := by
  have hsame : ∀ {v w : Value}, (v.unsignedZeros && w.unsignedZeros) = true →
      (v.text floatText = w.text floatText ↔ v.same w = true) := fun h =>
    text_eq_iff_same hfloat (Bool.and_eq_true_iff.mp h).1 (Bool.and_eq_true_iff.mp h).2
  have hnum : ∀ (x : Number) {w : Value}, w.kind ≠ .number →
      ¬ canonical floatText (.num x) = w.text floatText := fun x _ hw =>
    canonical_num_ne hfloat x hw
  cases v with
  | str s => cases w <;> exact Iff.rfl
  | num x =>
    cases w with
    | str t => exact Iff.rfl
    | num y =>
      obtain ⟨hx, hy⟩ := Bool.and_eq_true_iff.mp h
      rw [canonical_num hfloat hx hy]
      exact beq_iff_eq.symm
    | _ => exact iff_of_false (hnum x (by intro hkind; cases hkind)) Bool.false_ne_true
  | _ =>
    cases w with
    | str t => exact Iff.rfl
    | num y =>
      exact iff_of_false (fun h => hnum y (by intro hkind; cases hkind) h.symm)
        Bool.false_ne_true
    | _ => exact hsame h

/-! ## Keys -/

/-- A key is the text of its canonical texts, as a JSON array. -/
theorem waitKey_eq (values : List Value) :
    waitKey floatText values =
      (Value.arr (values.map fun v => .str (canonical floatText v))).text floatText := by
  unfold waitKey
  rw [Value.text, textItems_eq, List.map_map]
  rfl

/-- A key tells the canonical texts. -/
theorem waitKey_eq_iff (hfloat : FloatTexts floatText) :
    waitKey floatText vs = waitKey floatText ws ↔
      List.Forall₂ (fun v w => canonical floatText v = canonical floatText w) vs ws := by
  have hmap : waitKey floatText vs = waitKey floatText ws ↔
      vs.map (canonical floatText) = ws.map (canonical floatText) := by
    rw [waitKey_eq, waitKey_eq]
    constructor
    · intro h
      have hitems := Value.arr.inj (text_injective hfloat h)
      have hstrs : (vs.map (canonical floatText)).map Value.str =
          (ws.map (canonical floatText)).map Value.str := by
        rw [List.map_map, List.map_map]
        exact hitems
      exact List.map_injective_iff.mpr (fun _ _ => Value.str.inj) hstrs
    · intro h
      have hstrs := congrArg (List.map Value.str) h
      rw [List.map_map, List.map_map] at hstrs
      exact congrArg (fun items => (Value.arr items).text floatText) hstrs
  rw [hmap, ← List.forall₂_eq_eq_eq, List.forall₂_map_left_iff, List.forall₂_map_right_iff]

/-- A key decides whether the values are alike, pair by pair. -/
theorem waitKey_eq_iff_alike (hfloat : FloatTexts floatText)
    (h : List.Forall₂ (fun v w => Comparable v w = true) vs ws) :
    waitKey floatText vs = waitKey floatText ws ↔ List.Forall₂ (Alike floatText) vs ws := by
  rw [waitKey_eq_iff hfloat]
  induction h with
  | nil => exact iff_of_true .nil .nil
  | cons hpair _ ih =>
    rw [List.forall₂_cons, List.forall₂_cons, canonical_iff_alike hfloat hpair, ih]

end Texts

/-! ## Waits -/

/-- An instance that sits in a wait on an event, with the values its key was made of. -/
structure Waits (e : Engine) (w : Instance) where
  name : String
  step : StepSpec
  event : String
  key : List WaitKey
  timeout : Option Dur
  onEvent : Option Outcome
  onTimeout : Option Outcome
  stored : List Value
  currentStep : w.row.currentStep = some name
  on_step : e.spec.step name = some step
  kind : step.kind = .wait (some event) key timeout onEvent onTimeout
  waiting : w.row.status = .waiting
  waitEvent : w.row.waitEvent = some event
  waitKey : w.row.waitKey = some (waitKey e.floatText stored)

section Resume

variable {e : Engine} {env : Env} {record : OutboxRecord} {w : Instance}

/-- The event's fields for the key of the wait. -/
def Waits.fields (wait : Waits e w) (record : OutboxRecord) : List Value :=
  wait.key.map fun k => record.payload.getOrNull k.eventField

/-- The event takes the instance out of its wait, or fails in doing so. -/
def Resumes (e : Engine) (env : Env) (record : OutboxRecord) (w : Instance) : Prop :=
  resumeSelects e record w.row = true ∧ resumeOne e env record w ≠ .ok none

/-- An event resumes a wait exactly when it is the event waited for and makes the stored key. -/
theorem resumes_iff (wait : Waits e w) : Resumes e env record w ↔
    record.eventType = wait.event ∧
      waitKey e.floatText wait.stored = waitKey e.floatText (wait.fields record) := by
  have hkey : eventKey e wait.key record = waitKey e.floatText (wait.fields record) := rfl
  have hone : resumeOne e env record w =
      if w.row.waitKey ≠ some (eventKey e wait.key record) then .ok none
      else (do
        let w' ← leaveWait e env w wait.step.name (wait.onEvent.getD {}) .resumed
          (some record.payload)
        pure (some w')) := by
    unfold resumeOne
    rw [wait.currentStep, Option.bind_some, wait.on_step]
    simp only [wait.kind]
    rfl
  have hleave : ∀ x : Except StepFailure Instance,
      (do let w' ← x; pure (some w')) ≠ (.ok none : Except StepFailure (Option Instance)) := by
    intro x h
    obtain ⟨w', -, hpure⟩ := bind_eq_ok.mp h
    cases pure_eq_ok.mp hpure
  unfold Resumes
  rw [hone, hkey, wait.waitKey]
  constructor
  · rintro ⟨hselect, hresume⟩
    unfold resumeSelects at hselect
    rw [Bool.and_eq_true, Bool.and_eq_true, wait.waitEvent] at hselect
    have hevent := Option.some.inj (beq_iff_eq.mp hselect.1.2)
    refine ⟨hevent.symm, ?_⟩
    by_contra hne
    exact hresume (if_pos fun h => hne (Option.some.inj h))
  · rintro ⟨hevent, hsame⟩
    constructor
    · have hmem : eventKey e wait.key record ∈ resumeKeys e record := by
        unfold resumeKeys
        rw [List.mem_dedup, List.mem_filterMap]
        refine ⟨wait.step, List.mem_of_find?_eq_some wait.on_step, ?_⟩
        rw [wait.kind]
        exact if_pos (beq_iff_eq.mpr hevent.symm)
      unfold resumeSelects
      rw [wait.waiting, wait.waitEvent, wait.waitKey, hevent, hsame, ← hkey]
      simpa using hmem
    · rw [if_neg (by rw [hsame]; simp)]
      exact hleave _

end Resume

/-! ## The theorem -/

/-- Two lists of values have one key exactly if their canonical texts are the same, pair by pair:
exactly if they are alike, where the two equalities can be compared. So an event resumes a wait
exactly if it is the event waited for and its fields are alike to the values the wait stored. -/
theorem wait_keys_decide {floatText : UInt64 → String} (hfloat : FloatTexts floatText) :
    (∀ vs ws : List Value, waitKey floatText vs = waitKey floatText ws ↔
      List.Forall₂ (fun v w => canonical floatText v = canonical floatText w) vs ws) ∧
    (∀ vs ws : List Value, List.Forall₂ (fun v w => Comparable v w = true) vs ws →
      (waitKey floatText vs = waitKey floatText ws ↔ List.Forall₂ (Alike floatText) vs ws)) ∧
    ∀ (e : Engine) (env : Env) (record : OutboxRecord) (w : Instance) (wait : Waits e w),
      e.floatText = floatText →
      List.Forall₂ (fun v w => Comparable v w = true) wait.stored (wait.fields record) →
      (Resumes e env record w ↔ record.eventType = wait.event ∧
        List.Forall₂ (Alike floatText) wait.stored (wait.fields record)) := by
  refine ⟨fun vs ws => waitKey_eq_iff hfloat, fun vs ws h => waitKey_eq_iff_alike hfloat h, ?_⟩
  rintro e env record w wait rfl h
  rw [resumes_iff wait, waitKey_eq_iff_alike hfloat h]

/-! ### A payment that is waited for by its invoice -/

/-- A text for every float; the keys below hold no float that it is asked to print. -/
def bitsText (bits : UInt64) : String := bits.toNat.repr ++ "e0"

theorem toList_bitsText : (bitsText bits).toList = bits.toNat.repr.toList ++ ['e', '0'] := by
  unfold bitsText
  rw [String.toList_append]
  rfl

theorem floatTexts_bitsText : FloatTexts bitsText := by
  constructor
  case injective =>
    intro a b h
    have hlist := congrArg String.toList h
    rw [toList_bitsText, toList_bitsText] at hlist
    have hrepr := String.toList_injective (List.append_cancel_right hlist)
    exact UInt64.toNat_inj.mp (natRepr_injective hrepr)
  case chars =>
    intro a c hc
    rw [toList_bitsText, List.mem_append] at hc
    rcases hc with hc | hc
    · unfold numberChar
      rw [natRepr_digits hc]
      rfl
    · simp only [List.mem_cons, List.not_mem_nil, or_false] at hc
      rcases hc with rfl | rfl <;> decide
  case ne_nil =>
    intro a h
    rw [toList_bitsText] at h
    exact List.append_ne_nil_of_right_ne_nil _ (List.cons_ne_nil _ _) h
  case notInteger =>
    intro a n h
    have hmem : 'e' ∈ (toString n).toList := by
      rw [← h, toList_bitsText]
      simp
    rcases intText_digits hmem with hdigit | hminus
    · cases hdigit
    · cases hminus

/-- An invoice's workflow waits for the payment that names the invoice. -/
def payments : Engine where
  spec :=
    { name := "invoice"
      triggerEvent := "InvoiceSent"
      steps := [
        { name := "payment",
          kind := .wait (some "PaymentReceived")
            [⟨"invoice", .path .context [.key "number"]⟩] none (some { next := some "paid" })
            none },
        { name := "paid", kind := .terminal .completed none none false none }] }
  floatText := bitsText

/-- An invoice waiting for the payment of its number. -/
def openInvoice (number : Value) : Instance where
  row :=
    { id := 100, workflow := "invoice", version := 1, companyId := 7, orgUnitId := none,
      status := .waiting, currentStep := some "payment", context := .obj [("number", number)],
      triggerEventId := 1, correlationId := none, deadlineAt := none,
      waitEvent := some "PaymentReceived", waitKey := some (waitKey bitsText [number]),
      waitDueAt := none, attempts := 0, lastError := none, createdAt := 0, updatedAt := 0 }
  log := []
  executions := []
  emitted := []

def openInvoiceWaits (number : Value) : Waits payments (openInvoice number) where
  name := "payment"
  step := { name := "payment",
            kind := .wait (some "PaymentReceived")
              [⟨"invoice", .path .context [.key "number"]⟩] none (some { next := some "paid" })
              none }
  event := "PaymentReceived"
  key := [⟨"invoice", .path .context [.key "number"]⟩]
  timeout := none
  onEvent := some { next := some "paid" }
  onTimeout := none
  stored := [number]
  currentStep := rfl
  on_step := rfl
  kind := rfl
  waiting := rfl
  waitEvent := rfl
  waitKey := rfl

/-- A payment of the invoice of a number. -/
def payment (number : Value) : OutboxRecord where
  id := 5
  eventType := "PaymentReceived"
  companyId := 7
  orgUnitId := none
  payload := .obj [("invoice", number)]
  correlationId := none

/-- The double `3.0`. -/
def three : Value := .num (.float 0x4008000000000000)

/-- The payment of invoice `3.0` resumes the wait for invoice `3`. -/
theorem wait_keys_decide_payment :
    FloatTexts bitsText ∧
      waitKey bitsText [.str "u1", .num (.int 3)] = waitKey bitsText [.str "u1", three] ∧
      Resumes payments Env.calm (payment three) (openInvoice (.num (.int 3))) := by
  have hdecide := wait_keys_decide floatTexts_bitsText
  have hthree : Alike bitsText (.num (.int 3)) three := by
    change jsonEq (.num (.int 3)) three = true
    have hunits : units 0x4008000000000000 = 3 * unit ∧ Int.natAbs 3 < 9000000000000000 :=
      floatWhole?_eq_some.mp (by decide +kernel)
    refine beq_iff_eq.mpr ?_
    rw [asF64_int rfl]
    exact hunits.1.symm
  have hcomparable : Comparable (.num (.int 3)) three = true := rfl
  refine ⟨floatTexts_bitsText, ?_, ?_⟩
  · exact (hdecide.2.1 _ _ (.cons rfl (.cons hcomparable .nil))).mpr (.cons rfl (.cons hthree .nil))
  · exact (hdecide.2.2 payments Env.calm (payment three) _ (openInvoiceWaits (.num (.int 3))) rfl
      (.cons hcomparable .nil)).mpr ⟨rfl, .cons hthree .nil⟩

/-- The text `"3"` and the number `3` make one key and are not equal. -/
theorem text_resumes_number :
    ¬ ∀ vs ws : List Value, vs.length = ws.length →
      (waitKey bitsText vs = waitKey bitsText ws ↔
        List.Forall₂ (fun v w => jsonEq v w = true) vs ws) := by
  intro h
  have hkeys : waitKey bitsText [.str "3"] = waitKey bitsText [.num (.int 3)] := by decide
  have hequal := (h [.str "3"] [.num (.int 3)] rfl).mp hkeys
  cases hequal with
  | cons hpair _ => cases hpair

end Backbone.Workflow
