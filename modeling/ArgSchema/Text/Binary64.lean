/-! Binary floating point in 64 bits: exact values, correct reading and shortest writing. -/

namespace ArgSchema

/-- A floating-point number, known by its 64 bits. -/
structure Binary64 where
  /-- Sign, eleven exponent bits and fifty-two fraction bits, from the top. -/
  bits : UInt64
deriving DecidableEq, Repr, Inhabited

/-- A decimal number without exponent: `digits` with the last `places` of them after the point. -/
structure Decimal where
  /-- All digits as one number. -/
  digits : Nat
  /-- Number of digits after the point. -/
  places : Nat
deriving DecidableEq, Repr

/-- The number rounded to the nearest integer of `num / den`, halves going to the even one. -/
def roundHalfEven (num den : Nat) : Nat :=
  let quotient := num / den
  -- Twice the remainder tells which side of the half the rest lies on.
  let twice := 2 * (num % den)
  if den < twice ∨ (twice = den ∧ quotient % 2 = 1) then quotient + 1 else quotient

/-- The digits of a number, padded with zeros on the left to a width. -/
def paddedDigits (width number : Nat) : String :=
  let digits := Nat.toDigits 10 number
  String.ofList (List.replicate (width - digits.length) '0' ++ digits)

/-- A power of ten. -/
def tenTo (exponent : Nat) : Nat := Nat.pow 10 exponent

/-- A decimal as text: no point for an integer, and no exponent ever. -/
def Decimal.text (decimal : Decimal) : String :=
  if decimal.places = 0 then paddedDigits 0 decimal.digits
  else
    let unit := tenTo decimal.places
    paddedDigits 0 (decimal.digits / unit) ++ "." ++
      paddedDigits decimal.places (decimal.digits % unit)

namespace Binary64

/-- The bits of positive infinity. -/
def infinityBits : Nat := 0x7FF0000000000000

/-- The bits with the sign set and nothing else. -/
def signBit : Nat := 0x8000000000000000

/-- Number of fractions that share an exponent. -/
def fractions : Nat := 0x0010000000000000

/-- Number of smallest positive numbers in one. -/
def unitsInOne : Nat := 1 <<< 1074

/-- Whether the sign bit is set. -/
def isNegative (x : Binary64) : Bool := signBit ≤ x.bits.toNat

/-- The bits without the sign. -/
def magnitudeBits (x : Binary64) : Nat := x.bits.toNat % signBit

/-- Whether the number is an infinity. -/
def isInfinite (x : Binary64) : Bool := x.magnitudeBits = infinityBits

/-- Whether the bits stand for no number. -/
def isNaN (x : Binary64) : Bool := infinityBits < x.magnitudeBits

/-- Equality of values: NaN differs from itself, and the two zeros are equal. -/
def sameValue (x y : Binary64) : Bool :=
  !x.isNaN && !y.isNaN &&
    (x.bits = y.bits || (x.magnitudeBits = 0 && y.magnitudeBits = 0))

/-- The magnitude of a finite number in units of the smallest positive one, `2 ^ -1074`. -/
def units (x : Binary64) : Nat :=
  let exponent := x.magnitudeBits / fractions
  let fraction := x.magnitudeBits % fractions
  -- Normal numbers have a leading one that is not stored.
  if exponent = 0 then fraction else (fractions + fraction) <<< (exponent - 1)

/-- The bits of the non-negative number nearest to `num / den` units, ties to even. -/
def nearestBits (num den : Nat) : Nat :=
  -- The last of fifty-three significant bits has this weight, never below one unit.
  let shift := (num / den).log2 - 52
  -- A significand that rounds up to the next power of two carries into the exponent.
  min (shift * fractions + roundHalfEven num (den <<< shift)) infinityBits

/-- A number with the given sign and magnitude bits. -/
def ofMagnitude (negative : Bool) (magnitude : Nat) : Binary64 :=
  ⟨UInt64.ofNat (if negative then signBit + magnitude else magnitude)⟩

/-- The number nearest to a decimal, ties to even, infinite when out of range. -/
def ofDecimal (negative : Bool) (decimal : Decimal) : Binary64 :=
  ofMagnitude negative (nearestBits (decimal.digits * unitsInOne) (tenTo decimal.places))

/-- The largest finite number of a sign. -/
def largest (negative : Bool) : Binary64 :=
  ofMagnitude negative (infinityBits - 1)

/-- The neighbours of a number of units on a decimal grid, the nearer first, an upper tie first. -/
def neighbours (units : Nat) (scale : Int) : List Decimal :=
  -- Grids at or above one are counted in tens, finer grids in decimal places.
  let whole := tenTo scale.toNat
  let places := (-scale).toNat
  let num := units * tenTo places
  let den := unitsInOne * whole
  let lower : Decimal := ⟨num / den * whole, places⟩
  let upper : Decimal := ⟨(num / den + 1) * whole, places⟩
  if 2 * (num % den) < den then [lower, upper] else [upper, lower]

/-- The decimal with every digit of the number. -/
def exact (x : Binary64) : Decimal :=
  -- A unit is this many times the last decimal place.
  ⟨x.units * Nat.pow 5 1074, 1074⟩

/-- The decimal on the coarsest grid that reads back as the magnitude of a finite number. -/
def shortest (x : Binary64) : Decimal :=
  let width := (Nat.toDigits 10 (x.units / unitsInOne)).length
  -- The coarsest grid has one point above the number, the finest holds it exactly.
  let grids := (List.range (width + 1075)).map fun step : Nat => (width : Int) - step
  let readsBack := fun decimal => (ofDecimal false decimal).magnitudeBits = x.magnitudeBits
  (grids.findSome? fun scale => (neighbours x.units scale).find? readsBack).getD x.exact

/-- The text of the magnitude: the fewest digits that read back, and never an exponent. -/
def magnitudeText (x : Binary64) : String :=
  if x.isNaN then "NaN" else if x.isInfinite then "inf" else x.shortest.text

end Binary64

end ArgSchema
