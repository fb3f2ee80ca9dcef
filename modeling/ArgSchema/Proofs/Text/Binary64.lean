import ArgSchema.Text.Binary64

/-! Numbers made of a sign and a magnitude have that sign and that magnitude. -/

namespace ArgSchema

namespace Binary64

/-- The magnitude of a number is the one that it was made of. -/
theorem magnitudeBits_ofMagnitude (negative : Bool) {magnitude : Nat} (small : magnitude < signBit) :
    (ofMagnitude negative magnitude).magnitudeBits = magnitude := by
  -- The sign is the topmost bit, and a magnitude lies below it.
  unfold signBit at small
  unfold magnitudeBits ofMagnitude signBit
  simp only [UInt64.toNat_ofNat']
  cases negative <;> simp only [Bool.false_eq_true, if_false, if_true] <;> omega

/-- The magnitude that a decimal is read as. -/
def decimalBits (decimal : Decimal) : Nat :=
  nearestBits (decimal.digits * unitsInOne) (tenTo decimal.places)

/-- A decimal is read as no more than infinity. -/
theorem decimalBits_le (decimal : Decimal) : decimalBits decimal ≤ infinityBits :=
  Nat.min_le_right _ _

/-- What a decimal is read as has a magnitude below the sign bit. -/
theorem decimalBits_lt (decimal : Decimal) : decimalBits decimal < signBit :=
  Nat.lt_of_le_of_lt (decimalBits_le decimal) (by decide)

/-- A decimal is read as a number. -/
theorem isNaN_ofDecimal (negative : Bool) (decimal : Decimal) :
    (ofDecimal negative decimal).isNaN = false := by
  -- A decimal rounds to infinity at most, and every NaN lies above infinity.
  have bits := magnitudeBits_ofMagnitude negative (decimalBits_lt decimal)
  have bound := decimalBits_le decimal
  unfold isNaN ofDecimal
  unfold decimalBits at bits bound
  rw [bits]
  exact decide_eq_false (Nat.not_lt.mpr bound)

/-- The largest number is one, and finite. -/
theorem largest_finite (negative : Bool) :
    (largest negative).isNaN = false ∧ (largest negative).isInfinite = false := by
  cases negative <;> decide

end Binary64

end ArgSchema
