import CopyingHeap.Object.Scalar

/-!
Exact numbers. Every finite single-precision float is a whole multiple of `2 ^ (-149)`, and so is
every integer, so both compare as integers counted in that unit.
-/

namespace CopyingHeap

/-- What a numeric value denotes, with nothing rounded. -/
inductive Number where
  /-- A finite number, counted in units of `2 ^ (-149)`. -/
  | finite (units : Int)
  | infinite (negative : Bool)
  | nan
  deriving DecidableEq

namespace Number

/-- The units that make one: `2 ^ 149`. -/
def unitsOfOne : Nat :=
  1 <<< 149

def ofInt (n : Int) : Number :=
  finite (n * unitsOfOne)

/-- The number that the bits of a single-precision float denote. -/
def ofFloatBits (bits : Word) : Number :=
  let negative := 0x80000000 ≤ bits.toNat
  let exponent : Nat := bits.toNat / 0x800000 % 0x100
  let fraction : Nat := bits.toNat % 0x800000
  if exponent = 255 then
    if fraction = 0 then infinite negative else nan
  else
    let units : Nat := if exponent = 0 then fraction else (0x800000 + fraction) <<< (exponent - 1)
    finite (if negative then -units else units)

/-- Numeric equality: a NaN equals nothing, both zeros are equal. -/
def equals (x y : Number) : Bool :=
  x != nan && x == y

theorem equals_eq_true_iff {x y : Number} : x.equals y = true ↔ x ≠ nan ∧ x = y := by
  simp [equals]

theorem equals_comm (x y : Number) : x.equals y = y.equals x := by
  rw [Bool.eq_iff_iff, equals_eq_true_iff, equals_eq_true_iff]
  constructor <;> rintro ⟨h, rfl⟩ <;> exact ⟨h, rfl⟩

theorem ofInt_inj {a b : Int} : ofInt a = ofInt b ↔ a = b := by
  have hu : (unitsOfOne : Int) ≠ 0 := by decide
  simp only [ofInt, finite.injEq]
  exact ⟨Int.eq_of_mul_eq_mul_right hu, fun h => h ▸ rfl⟩

end Number

/-- The number that a value is, in the word itself or boxed. -/
def Memory.number? (m : Memory) (v : Value) : Except Fault (Option Number) := do
  match v with
  | .int n => return some (Number.ofInt n.toInt)
  | v =>
    match v.object? with
    | none => return none
    | some r =>
      match ← m.kind? r with
      | some .integer => return some (Number.ofInt (← m.integerValue r).toInt)
      | some .float => return some (Number.ofFloatBits (← m.floatBits r))
      | _ => return none

end CopyingHeap
