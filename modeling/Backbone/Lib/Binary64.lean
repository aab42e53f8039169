import Mathlib.Tactic.Linarith
import Mathlib.Tactic.Ring

/-!
# Double precision numbers, exactly

The fields of a 64-bit word in the IEEE 754 format, and the number a finite word stands for. Every
finite double is a whole multiple of the smallest one, `2 ^ -1074`; counted in that unit, values are
integers and nothing is rounded. Only the two zeros share a value.

`ofInt` is the double nearest to an integer, ties to even: an integer itself.
-/

namespace Backbone.Binary64

variable {a : UInt64} {b bits : UInt64}

/-! ## Fields -/

def negative (bits : UInt64) : Bool := bits.toNat / 2 ^ 63 == 1

def exponent (bits : UInt64) : ℕ := bits.toNat / 2 ^ 52 % 2 ^ 11

def fraction (bits : UInt64) : ℕ := bits.toNat % 2 ^ 52

/-- The smallest double is two to the minus this. -/
def depth : ℕ := 1074

/-- One, counted in the smallest double. -/
def unit : ℕ := 2 ^ depth

/-- The absolute value, counted in the smallest double. -/
def magnitude (bits : UInt64) : ℕ :=
  if exponent bits = 0 then fraction bits
  else (2 ^ 52 + fraction bits) * 2 ^ (exponent bits - 1)

/-- The value, counted in the smallest double. -/
def units (bits : UInt64) : ℤ :=
  if negative bits then -(magnitude bits : ℤ) else magnitude bits

/-! ## Integers -/

/-- The nearest multiple of `2 ^ k`, and the even one of two that are as near. -/
def roundEven (n k : ℕ) : ℕ :=
  let q := n / 2 ^ k
  let r := n % 2 ^ k
  (if 2 ^ k < 2 * r ∨ 2 ^ k = 2 * r ∧ q % 2 = 1 then q + 1 else q) * 2 ^ k

/-- The double nearest to a natural number: 53 significant bits. -/
def ofNat (n : ℕ) : ℕ := if n < 2 ^ 53 then n else roundEven n (Nat.log2 n - 52)

/-- The double nearest to an integer. -/
def ofInt (n : ℤ) : ℤ := if n < 0 then -(ofNat n.natAbs : ℤ) else ofNat n.natAbs

theorem ofInt_of_lt {n : ℤ} (h : n.natAbs < 2 ^ 53) : ofInt n = n := by
  unfold ofInt ofNat
  rw [if_pos h]
  split <;> omega

/-! ## What a value says of the word -/

theorem fraction_lt (bits : UInt64) : fraction bits < 2 ^ 52 := Nat.mod_lt _ (by norm_num)

/-- A word is its three fields. -/
theorem eq_of_fields (hneg : negative a = negative b) (hexp : exponent a = exponent b)
    (hfrac : fraction a = fraction b) : a = b := by
  have ha := a.toNat_lt
  have hb := b.toNat_lt
  unfold negative at hneg
  unfold exponent at hexp
  unfold fraction at hfrac
  have hsign : a.toNat / 2 ^ 63 = b.toNat / 2 ^ 63 := by
    have hcases : ∀ n < 2 ^ 64, n / 2 ^ 63 = 0 ∨ n / 2 ^ 63 = 1 := by
      intro n hn
      omega
    rcases hcases _ ha with h | h <;> rcases hcases _ hb with h' | h' <;>
      simp only [h, h'] at hneg ⊢ <;> cases hneg
  refine UInt64.toNat_inj.mp ?_
  omega

/-- A word with a positive exponent field is past every word with a smaller one. -/
theorem magnitude_lt (h : exponent a < exponent b) : magnitude a < magnitude b := by
  have hfa := fraction_lt a
  have hb : magnitude b = (2 ^ 52 + fraction b) * 2 ^ (exponent b - 1) := if_neg (by omega)
  have hlower : 2 ^ 52 * 2 ^ (exponent b - 1) ≤ magnitude b := by
    rw [hb]
    exact Nat.mul_le_mul_right _ (Nat.le_add_right _ _)
  refine lt_of_lt_of_le ?_ hlower
  unfold magnitude
  split
  · have hone : 1 ≤ 2 ^ (exponent b - 1) := Nat.one_le_two_pow
    calc fraction a < 2 ^ 52 * 1 := by omega
      _ ≤ 2 ^ 52 * 2 ^ (exponent b - 1) := Nat.mul_le_mul_left _ hone
  · have hpow : 2 ^ (exponent a - 1) * 2 ≤ 2 ^ (exponent b - 1) := by
      rw [← Nat.pow_succ]
      exact Nat.pow_le_pow_right (by norm_num) (by omega)
    have hpos : 0 < 2 ^ (exponent a - 1) := Nat.two_pow_pos _
    calc (2 ^ 52 + fraction a) * 2 ^ (exponent a - 1)
        < (2 ^ 52 * 2) * 2 ^ (exponent a - 1) := Nat.mul_lt_mul_of_pos_right (by omega) hpos
      _ = 2 ^ 52 * (2 ^ (exponent a - 1) * 2) := by ring
      _ ≤ 2 ^ 52 * 2 ^ (exponent b - 1) := Nat.mul_le_mul_left _ hpow

theorem fields_of_magnitude (h : magnitude a = magnitude b) :
    exponent a = exponent b ∧ fraction a = fraction b := by
  have hexp : exponent a = exponent b := by
    rcases lt_trichotomy (exponent a) (exponent b) with hlt | heq | hlt
    · have := magnitude_lt hlt
      omega
    · exact heq
    · have := magnitude_lt hlt
      omega
  refine ⟨hexp, ?_⟩
  unfold magnitude at h
  rw [hexp] at h
  split at h
  · exact h
  · have hsum := Nat.eq_of_mul_eq_mul_right (Nat.two_pow_pos _) h
    omega

/-- Words of one value other than zero are the same word. -/
theorem eq_of_units (h : units a = units b) (hzero : units a ≠ 0) : a = b := by
  have hmagnitude : magnitude a = magnitude b := by
    unfold units at h
    split at h <;> split at h <;> omega
  have hneg : negative a = negative b := by
    unfold units at h hzero
    cases ha : negative a <;> cases hb : negative b <;> simp only [ha, hb, if_true, if_false,
      Bool.false_eq_true] at h hzero ⊢ <;> omega
  obtain ⟨hexp, hfrac⟩ := fields_of_magnitude hmagnitude
  exact eq_of_fields hneg hexp hfrac

/-! ## Whole numbers -/

/-- A word whose exponent field is `1075` or more stands for a whole number. -/
theorem magnitude_whole (h : 1075 ≤ exponent bits) :
    magnitude bits = (2 ^ 52 + fraction bits) * 2 ^ (exponent bits - 1075) * unit := by
  have hpow : 2 ^ (exponent bits - 1) = 2 ^ (exponent bits - 1075) * unit := by
    unfold unit
    rw [← Nat.pow_add]
    congr 1
    unfold depth
    omega
  unfold magnitude
  rw [if_neg (by omega), hpow, Nat.mul_assoc]

/-- A word with a smaller exponent field stands for a whole number exactly if the bits behind the
point are zero. -/
theorem magnitude_fraction (hpos : exponent bits ≠ 0) (h : exponent bits < 1075)
    (n : ℕ) : magnitude bits = n * unit ↔
      2 ^ 52 + fraction bits = n * 2 ^ (1075 - exponent bits) := by
  have hpow : unit = 2 ^ (1075 - exponent bits) * 2 ^ (exponent bits - 1) := by
    unfold unit
    rw [← Nat.pow_add]
    congr 1
    unfold depth
    omega
  unfold magnitude
  rw [if_neg hpos, hpow, ← Nat.mul_assoc]
  exact Nat.mul_left_inj (Nat.two_pow_pos _).ne'

/-- A word with exponent field zero is less than one. -/
theorem magnitude_subnormal (h : exponent bits = 0) : magnitude bits < unit := by
  have hunit : 2 ^ 52 ≤ unit := by
    unfold unit
    exact Nat.pow_le_pow_right (by omega) (by unfold depth; omega)
  unfold magnitude
  rw [if_pos h]
  exact lt_of_lt_of_le (fraction_lt bits) hunit

theorem unit_pos : 0 < unit := Nat.two_pow_pos _

/-- The word of the negative zero. -/
def negativeZero : UInt64 := 0x8000000000000000

theorem eq_zero_of_units (h : units a = 0) (hneg : a ≠ negativeZero) : a = 0 := by
  have hmagnitude : magnitude a = magnitude 0 := by
    have hzero : magnitude 0 = 0 := rfl
    unfold units at h
    split at h <;> omega
  obtain ⟨hexp, hfrac⟩ := fields_of_magnitude hmagnitude
  cases hsign : negative a with
  | false => exact eq_of_fields hsign hexp hfrac
  | true =>
    have hminus : negative negativeZero = true := by decide +kernel
    have hzero : exponent 0 = exponent negativeZero ∧ fraction 0 = fraction negativeZero := by
      decide +kernel
    exact absurd (eq_of_fields (hsign.trans hminus.symm) (hexp.trans hzero.1)
      (hfrac.trans hzero.2)) hneg

/-! ## Remainders -/

/-- The word that stands for no number. -/
def nan : UInt64 := 0x7ff8000000000000

/-- The exponent field of the infinities and of what is no number. -/
def topExponent : ℕ := 2 ^ 11 - 1

/-- Exponent and fraction of a magnitude that has at most 53 digits before its zeros. -/
def fieldsOf (m : ℕ) : ℕ :=
  if m < 2 ^ 52 then m else (m.log2 - 51) * 2 ^ 52 + (m / 2 ^ (m.log2 - 52) - 2 ^ 52)

/-- The remainder of a division that rounds to zero: it has the sign of `x` and needs no rounding, as
it is a multiple of the smaller unit in the last place and below the number that has it. -/
def rem (x y : UInt64) : UInt64 :=
  if exponent x = topExponent || exponent y = topExponent && fraction y != 0 || magnitude y = 0 then
    nan
  else if exponent y = topExponent then x
  else
    (if negative x then negativeZero else 0) +
      UInt64.ofNat (fieldsOf (magnitude x % magnitude y))

end Backbone.Binary64
