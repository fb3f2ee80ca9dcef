import ArgSchema.Proofs.Text.Binary64

/-! Shortest decimals: what is written of a finite number reads back as the number. -/

namespace ArgSchema

/-- Rounding depends on the fraction only, and not on how it is written. -/
theorem roundHalfEven_mul {factor : Nat} (positive : 0 < factor) (num den : Nat) :
    roundHalfEven (factor * num) (factor * den) = roundHalfEven num den := by
  -- Quotient and half are the same, as both sides of each comparison have the factor.
  have twice : 2 * (factor * num % (factor * den)) = factor * (2 * (num % den)) := by
    rw [Nat.mul_mod_mul_left, Nat.mul_left_comm]
  unfold roundHalfEven
  rw [Nat.mul_div_mul_left _ _ positive, twice]
  simp only [Nat.mul_lt_mul_left positive, Nat.mul_right_inj (Nat.pos_iff_ne_zero.mp positive)]

/-- Powers of ten are positive. -/
theorem tenTo_pos (exponent : Nat) : 0 < tenTo exponent := Nat.pow_pos (by decide)

/-- A whole number of units is rounded to itself. -/
theorem roundHalfEven_shiftLeft (number shift : Nat) :
    roundHalfEven (number <<< shift) (1 <<< shift) = number := by
  have positive : 0 < 1 <<< shift := by
    rw [Nat.shiftLeft_eq, Nat.one_mul]
    exact Nat.two_pow_pos shift
  have whole : number <<< shift = number * 1 <<< shift := by
    rw [Nat.shiftLeft_eq, Nat.shiftLeft_eq, Nat.one_mul]
  unfold roundHalfEven
  -- Nothing remains, so nothing is rounded.
  rw [whole, Nat.mul_div_cancel _ positive, Nat.mul_mod_left, if_neg (by omega)]

/-- Each doubling adds one to the logarithm. -/
theorem log2_shiftLeft {number : Nat} (some : number ≠ 0) (shift : Nat) :
    (number <<< shift).log2 = number.log2 + shift := by
  -- By induction on the shift, each step of which doubles the number.
  induction shift with
  | zero => rfl
  | succ shift ih =>
    have still : number <<< shift ≠ 0 := by
      rw [Nat.shiftLeft_eq]
      exact Nat.mul_ne_zero some (Nat.pos_iff_ne_zero.mp (Nat.two_pow_pos shift))
    rw [Nat.shiftLeft_succ, Nat.log2_two_mul still, ih, Nat.add_assoc]

namespace Binary64

/-- The nearest number depends on the fraction only, and not on how it is written. -/
theorem nearestBits_mul {factor : Nat} (positive : 0 < factor) (num den : Nat) :
    nearestBits (factor * num) (factor * den) = nearestBits num den := by
  -- Only the quotient and its rounding are looked at.
  unfold nearestBits
  have shifted : ∀ shift, (factor * den) <<< shift = factor * den <<< shift := fun shift => by
    rw [Nat.shiftLeft_eq, Nat.shiftLeft_eq, Nat.mul_assoc]
  simp only [Nat.mul_div_mul_left _ _ positive, shifted, roundHalfEven_mul positive]

/-- The number nearest to a finite number is that number. -/
theorem nearestBits_units {x : Binary64} (finite : x.magnitudeBits < infinityBits) :
    nearestBits x.units 1 = x.magnitudeBits := by
  -- The bits are an exponent and a fraction, and units undo them.
  have parts := Nat.div_add_mod x.magnitudeBits fractions
  have small := Nat.mod_lt x.magnitudeBits (show 0 < fractions by decide)
  unfold nearestBits units
  simp only [Nat.div_one]
  generalize x.magnitudeBits / fractions = exponent at *
  generalize x.magnitudeBits % fractions = fraction at *
  by_cases subnormal : exponent = 0
  · -- Below the normal numbers the last bit weighs one unit.
    subst subnormal
    have shift : fraction.log2 - 52 = 0 := by
      by_cases none : fraction = 0
      · subst none
        rfl
      · have log := (@Nat.log2_lt fraction 52 none).mpr (by simpa [fractions] using small)
        omega
    have round := roundHalfEven_shiftLeft fraction 0
    simp only [if_true, shift, Nat.zero_mul, Nat.zero_add] at round ⊢
    simp only [Nat.shiftLeft_zero] at round ⊢
    rw [round]
    omega
  · -- The stored fraction and the leading one are the fifty-three bits that are kept.
    have some : fractions + fraction ≠ 0 := by unfold fractions; omega
    have log : (fractions + fraction).log2 = 52 := by
      refine (Nat.log2_eq_iff some).mpr ⟨?_, ?_⟩ <;> simp only [fractions] at small ⊢ <;> omega
    have shift : ((fractions + fraction) <<< (exponent - 1)).log2 - 52 = exponent - 1 := by
      rw [log2_shiftLeft some, log]
      omega
    rw [if_neg subnormal, shift, roundHalfEven_shiftLeft]
    -- Scaling the leading one by the exponent gives the bits of the exponent, less one.
    have scaled : (exponent - 1) * fractions + fractions = fractions * exponent := by
      obtain ⟨before, rfl⟩ := Nat.exists_eq_succ_of_ne_zero subnormal
      rw [Nat.succ_sub_one, Nat.mul_succ, Nat.mul_comm]
    omega

/-- Units with their last digits behind the point are the units that they were. -/
theorem nearestBits_exact (units places : Nat) :
    nearestBits (units * Nat.pow 5 places * 1 <<< places) (tenTo places) = nearestBits units 1 := by
  -- A power of ten is one of five shifted, so the fraction is whole.
  have ten : Nat.pow 5 places * 1 <<< places = tenTo places := by
    rw [Nat.shiftLeft_eq, Nat.one_mul]
    exact (Nat.mul_pow 5 2 places).symm
  have whole := nearestBits_mul (tenTo_pos places) units 1
  rw [Nat.mul_one] at whole
  rw [Nat.mul_assoc, ten, Nat.mul_comm, whole]

/-- The decimal with every digit reads back. -/
theorem decimalBits_exact {x : Binary64} (finite : x.magnitudeBits < infinityBits) :
    decimalBits x.exact = x.magnitudeBits := by
  simp only [decimalBits, exact, unitsInOne, nearestBits_exact, nearestBits_units finite]

/-- The shortest decimal reads back. -/
theorem decimalBits_shortest {x : Binary64} (finite : x.magnitudeBits < infinityBits) :
    decimalBits x.shortest = x.magnitudeBits := by
  unfold shortest
  simp only
  generalize List.map _ _ = grids
  -- A decimal that was found reads back, as that was sought; without one the exact decimal is
  -- taken.
  cases chosen : grids.findSome? fun scale => (neighbours x.units scale).find? fun decimal =>
      decide ((ofDecimal false decimal).magnitudeBits = x.magnitudeBits) with
  | none => exact decimalBits_exact finite
  | some decimal =>
    obtain ⟨scale, _, found⟩ := List.exists_of_findSome?_eq_some chosen
    have same : (ofDecimal false decimal).magnitudeBits = x.magnitudeBits := by
      simpa using List.find?_some found
    rw [Option.getD_some, ← same]
    exact (magnitudeBits_ofMagnitude false (decimalBits_lt decimal)).symm

/-- A zero behind the point makes no difference. -/
theorem decimalBits_tenfold (digits : Nat) :
    decimalBits ⟨tenTo 1 * digits, 1⟩ = decimalBits ⟨digits, 0⟩ := by
  have whole := nearestBits_mul (tenTo_pos 1) (digits * unitsInOne) (tenTo 0)
  rw [← Nat.mul_assoc] at whole
  exact whole

/-- A number is made of its sign and its magnitude. -/
theorem ofMagnitude_self (x : Binary64) : ofMagnitude x.isNegative x.magnitudeBits = x := by
  -- The bits are the sign and the magnitude.
  have bound := x.bits.toNat_lt
  have same : (if x.isNegative then signBit + x.magnitudeBits else x.magnitudeBits) =
      x.bits.toNat := by
    unfold isNegative magnitudeBits signBit
    simp only [decide_eq_true_eq]
    split <;> omega
  unfold ofMagnitude
  rw [same, UInt64.ofNat_toNat]

end Binary64

end ArgSchema
