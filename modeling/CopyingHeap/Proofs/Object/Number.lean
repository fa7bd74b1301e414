import CopyingHeap.Object.Number
import Mathlib.Algebra.Field.Rat
import Mathlib.Tactic.NormNum
import Mathlib.Tactic.Ring

/-!
Floats as rational numbers. The fields of the word spell a sign, a significand and a power of two. Counted
in units this is the same number, so that an integer and a float are one exact number if and only if they
are one rational number.
-/

namespace CopyingHeap

/-- The eight bits behind the sign. -/
def floatExponent (bits : Word) : Nat :=
  bits.toNat / 0x800000 % 0x100

/-- The low 23 bits. -/
def floatFraction (bits : Word) : Nat :=
  bits.toNat % 0x800000

def IsNaN (bits : Word) : Prop :=
  floatExponent bits = 255 ∧ floatFraction bits ≠ 0

/-- At least one and below two, or below one for a subnormal number. -/
def significand (bits : Word) : ℚ :=
  (if floatExponent bits = 0 then 0 else 1) + floatFraction bits / 2 ^ 23

/-- The rational number that the bits of a single-precision float denote. Infinities and NaNs denote none. -/
def floatValue (bits : Word) : Option ℚ :=
  if floatExponent bits = 255 then none
  else some ((if 0x80000000 ≤ bits.toNat then -1 else 1) *
    (significand bits * 2 ^ (((max (floatExponent bits) 1 : Nat) : ℤ) - 127)))

namespace Number

/-- The finite numbers, with one as the unit. -/
def rational? : Number → Option ℚ
  | finite units => some (units / unitsOfOne)
  | _ => none

theorem unitsOfOne_eq : (unitsOfOne : ℚ) = 2 ^ 149 := by
  rw [unitsOfOne, Nat.shiftLeft_eq, Nat.one_mul]
  norm_num

theorem unitsOfOne_ne_zero : (unitsOfOne : ℚ) ≠ 0 := by
  rw [unitsOfOne_eq]
  norm_num

theorem rational?_eq_some_iff {x : Number} {n : Int} : x.rational? = some (n : ℚ) ↔ x = ofInt n := by
  cases x with
  | finite units =>
    rw [rational?, Option.some.injEq, div_eq_iff unitsOfOne_ne_zero, ofInt, finite.injEq]
    norm_cast
  | infinite negative => simp [rational?, ofInt]
  | nan => simp [rational?, ofInt]

/-- The units of the magnitude of a finite float. -/
def floatUnits (bits : Word) : Nat :=
  if floatExponent bits = 0 then floatFraction bits
  else (0x800000 + floatFraction bits) <<< (floatExponent bits - 1)

theorem ofFloatBits_eq (bits : Word) : ofFloatBits bits =
    if floatExponent bits = 255 then
      if floatFraction bits = 0 then infinite (0x80000000 ≤ bits.toNat) else nan
    else finite (if 0x80000000 ≤ bits.toNat then -(floatUnits bits : Int) else floatUnits bits) :=
  rfl

theorem floatUnits_eq (bits : Word) : (floatUnits bits : ℚ) / unitsOfOne =
    significand bits * 2 ^ (((max (floatExponent bits) 1 : Nat) : ℤ) - 127) := by
  rw [unitsOfOne_eq, floatUnits, significand]
  cases floatExponent bits with
  | zero =>
    rw [if_pos rfl, if_pos rfl]
    norm_num
    ring
  | succ e =>
    have hexponent : ((e + 1 : Nat) : ℤ) - 127 = e + -126 := by
      push_cast
      ring
    rw [if_neg (Nat.succ_ne_zero e), if_neg (Nat.succ_ne_zero e), Nat.shiftLeft_eq, Nat.add_sub_cancel,
      Nat.max_eq_left (Nat.le_add_left 1 e), hexponent, zpow_add₀ (by norm_num), zpow_natCast]
    push_cast
    norm_num
    ring

/-- The units count the number that the bits denote. -/
theorem rational?_ofFloatBits (bits : Word) : (ofFloatBits bits).rational? = floatValue bits := by
  rw [ofFloatBits_eq, floatValue]
  by_cases hspecial : floatExponent bits = 255
  · rw [if_pos hspecial, if_pos hspecial]
    split <;> rfl
  · rw [if_neg hspecial, if_neg hspecial, rational?, Option.some.injEq, ← floatUnits_eq]
    by_cases hnegative : 0x80000000 ≤ bits.toNat
    · rw [if_pos hnegative, if_pos hnegative, Int.cast_neg, Int.cast_natCast, neg_div, neg_one_mul]
    · rw [if_neg hnegative, if_neg hnegative, Int.cast_natCast, one_mul]

/-- A float and an integer are the same exact number if and only if they are the same rational number. -/
theorem ofFloatBits_eq_ofInt_iff {bits : Word} {n : Int} :
    ofFloatBits bits = ofInt n ↔ floatValue bits = some (n : ℚ) := by
  rw [← rational?_ofFloatBits, rational?_eq_some_iff]

/-- From `2 ^ 24` on only every second integer is a float. -/
example : ofFloatBits 0x4B800000 = ofInt 0x1000000 ∧
    ofFloatBits 0x4B800000 ≠ ofInt 0x1000001 ∧ ofFloatBits 0x4B800001 = ofInt 0x1000002 := by
  decide

theorem ofFloatBits_eq_nan_iff {bits : Word} : ofFloatBits bits = nan ↔ IsNaN bits := by
  rw [ofFloatBits_eq, IsNaN]
  split
  · split <;> simp_all
  · simp_all

end Number

end CopyingHeap
