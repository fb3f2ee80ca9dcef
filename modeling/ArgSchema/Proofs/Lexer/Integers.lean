import ArgSchema.Lexer.Lexeme

/-! Integers of digits: adding them up within 64 bits fails exactly if the whole number is too great. -/

namespace ArgSchema

namespace Lexeme

/-- An integer of a sign and a magnitude. -/
def signed (negative : Bool) (magnitude : Nat) : Int :=
  if negative then -magnitude else magnitude

/-- The number that digits denote behind those of another number. -/
def continued (magnitude : Nat) (digits : Bytes) : Nat :=
  digits.foldl (fun value digit => value * 10 + (digit.toNat - (byte '0').toNat)) magnitude

/-- More digits never make a number smaller. -/
theorem le_continued (magnitude : Nat) (digits : Bytes) : magnitude ≤ continued magnitude digits := by
  -- By induction on the digits, each of which makes the number no smaller.
  induction digits generalizing magnitude with
  | nil => exact Nat.le_refl _
  | cons digit rest ih =>
    refine Nat.le_trans ?_ (ih (magnitude * 10 + (digit.toNat - (byte '0').toNat)))
    omega

/-- An integer of 64 bits fits. -/
theorem fits?_of_mem {value : Int} (low : leastInteger ≤ value) (high : value ≤ greatestInteger) :
    fits? value = some value := if_pos ⟨low, high⟩

/-- What fits is an integer of 64 bits. -/
theorem mem_of_fits? {value found : Int} (fits : fits? value = some found) :
    found = value ∧ leastInteger ≤ value ∧ value ≤ greatestInteger := by
  -- A number in range is given back as it is.
  unfold fits? at fits
  split at fits
  · next inside =>
    cases fits
    exact ⟨rfl, inside⟩
  · cases fits

/-- Below the least integer nothing fits. -/
theorem fits?_of_lt {value : Int} (low : value < leastInteger) : fits? value = none :=
  if_neg fun inside => Int.not_le.mpr low inside.1

/-- Above the greatest integer nothing fits. -/
theorem fits?_of_gt {value : Int} (high : greatestInteger < value) : fits? value = none :=
  if_neg fun inside => Int.not_le.mpr high inside.2

/-- An integer that is farther from zero than one that does not fit does not fit. -/
theorem fits?_signed_eq_none {negative : Bool} {small great : Nat} (le : small ≤ great)
    (fails : fits? (signed negative small) = none) : fits? (signed negative great) = none := by
  have outside : ¬(leastInteger ≤ signed negative small ∧ signed negative small ≤ greatestInteger) :=
    fun inside => by simp [fits?_of_mem inside.1 inside.2] at fails
  refine if_neg fun inside => outside ?_
  -- Both have the same sign, so the one that is nearer to zero lies between zero and the other.
  unfold signed leastInteger greatestInteger at *
  cases negative <;> simp only [Bool.false_eq_true, if_true, if_false] at * <;> omega

/-- Digits are added up to their number behind one that fits, if the whole fits. -/
theorem foldlM_accumulate (negative : Bool) (magnitude : Nat) (digits : Bytes)
    (start : fits? (signed negative magnitude) = some (signed negative magnitude)) :
    digits.foldlM (fun value digit => do
      let scaled ← fits? (value * 10)
      let ones : Nat := digit.toNat - (byte '0').toNat
      fits? (if negative then scaled - ones else scaled + ones)) (signed negative magnitude) =
        fits? (signed negative (continued magnitude digits)) := by
  -- By induction on the digits, with the number read so far in range.
  induction digits generalizing magnitude with
  | nil => exact start.symm
  | cons digit rest ih =>
    have scaled : signed negative magnitude * 10 = signed negative (magnitude * 10) := by
      unfold signed
      split <;> omega
    have next : ∀ ones : Nat, (if negative then signed negative (magnitude * 10) - ones
        else signed negative (magnitude * 10) + ones) = signed negative (magnitude * 10 + ones) := by
      intro ones
      unfold signed
      split <;> omega
    rw [List.foldlM_cons]
    simp only [scaled]
    -- A step that fails would only be followed by numbers that are still farther from zero.
    cases times : fits? (signed negative (magnitude * 10)) with
    | none =>
      refine (fits?_signed_eq_none ?_ times).symm
      exact Nat.le_trans (Nat.le_add_right ..) (le_continued _ rest)
    | some product =>
      obtain ⟨rfl, -⟩ := mem_of_fits? times
      simp only [Option.bind_eq_bind, Option.bind_some, next]
      cases plus : fits? (signed negative (magnitude * 10 + (digit.toNat - (byte '0').toNat))) with
      | none => exact (fits?_signed_eq_none (le_continued _ rest) plus).symm
      | some sum =>
        obtain ⟨rfl, -⟩ := mem_of_fits? plus
        exact ih _ plus

/-- Adding up digits within 64 bits fails exactly if the number that they denote does not fit. -/
theorem accumulate?_eq (negative : Bool) (digits : Bytes) :
    accumulate? negative digits = fits? (signed negative (digitsValue digits)) := by
  -- The digits are read from zero, which is in range.
  have zero : signed negative 0 = 0 := by cases negative <;> rfl
  have given := foldlM_accumulate negative 0 digits (by rw [zero]; rfl)
  rw [zero] at given
  exact given

/-- The warning for an integer that is not one of 64 bits. -/
def outOfRange? (value : Int) (text : String) : Option Warning :=
  if value < leastInteger then some (.integerUnderflow text)
  else if greatestInteger < value then some (.integerOverflow text)
  else none

/-- An integer literal is its number, clamped with a warning if it is not one of 64 bits. -/
theorem integer_eq (negative : Bool) (digits : Bytes) :
    let value := signed negative (digitsValue digits)
    let text := (if negative then "-" else "") ++ Utf8.decodeLossy digits
    integer negative digits =
      (.number (max leastInteger (min greatestInteger value)), text, outOfRange? value text) := by
  intro value text
  unfold integer outOfRange?
  rw [accumulate?_eq]
  by_cases low : leastInteger ≤ value
  · by_cases high : value ≤ greatestInteger
    · rw [fits?_of_mem low high, if_neg (Int.not_lt.mpr low), if_neg (Int.not_lt.mpr high),
        Int.min_eq_right high, Int.max_eq_right low]
    · have above : greatestInteger < value := Int.not_le.mp high
      rw [fits?_of_gt above, if_neg (Int.not_lt.mpr low), if_pos above,
        Int.min_eq_left (Int.le_of_lt above), Int.max_eq_right (by decide)]
      -- Only an integer without a sign can be too great.
      cases negative with
      | false => rfl
      | true => simp only [value, signed, if_true, greatestInteger] at above; omega
  · have below : value < leastInteger := Int.not_le.mp low
    have small : value ≤ greatestInteger := Int.le_trans (Int.le_of_lt below) (by decide)
    rw [fits?_of_lt below, if_pos below, Int.min_eq_right small,
      Int.max_eq_left (Int.le_of_lt below)]
    -- Only a negative integer can be too small.
    cases negative with
    | true => rfl
    | false => simp only [value, signed, Bool.false_eq_true, if_false, leastInteger] at below; omega

end Lexeme

end ArgSchema
