import ArgSchema.Layout
import ArgSchema.Proofs.Text.Shortest

/-! Digits: how numbers are written, and what the digits that are written denote. -/

namespace ArgSchema

/-- Characters that are digits. -/
def AreDigits (chars : List Char) : Prop := ∀ c ∈ chars, c.isDigit = true

/-- The digits of a number are digits. -/
theorem areDigits_toDigits (number : Nat) : AreDigits (Nat.toDigits 10 number) :=
  fun _ member => Nat.isDigit_of_mem_toDigits (by decide) (by decide) member

/-- Digits that are padded to a width are digits of the number, and as many as the width. -/
theorem paddedDigits_spec {width number : Nat} (fits : number < tenTo width)
    (positive : 0 < width) : ∃ chars, paddedDigits width number = String.ofList chars ∧
      AreDigits chars ∧ chars.length = width ∧ Nat.ofDigitChars 10 chars 0 = number := by
  -- The zeros in front fill the width, and they do not count.
  have short : (Nat.toDigits 10 number).length ≤ width :=
    (Nat.length_toDigits_le_iff (by decide) positive).mpr fits
  refine ⟨_, rfl, fun c member => ?_, ?_, ?_⟩
  · rcases List.mem_append.mp member with zero | digit
    · rw [List.eq_of_mem_replicate zero]
      rfl
    · exact areDigits_toDigits number c digit
  · rw [List.length_append, List.length_replicate]
    omega
  · rw [Nat.ofDigitChars_append, Nat.ofDigitChars_replicate_zero, Nat.mul_zero,
      Nat.ofDigitChars_ten_toDigits]

/-- Digits behind others count as units, and the others as multiples of the power of ten. -/
theorem ofDigitChars_append_zero (front back : List Char) :
    Nat.ofDigitChars 10 (front ++ back) 0 =
      tenTo back.length * Nat.ofDigitChars 10 front 0 + Nat.ofDigitChars 10 back 0 := by
  rw [Nat.ofDigitChars_append]
  exact Nat.ofDigitChars_eq_ofDigitChars_zero

/-- A decimal is written as digits with a point among them, or without if it is whole. -/
theorem Decimal.text_spec (decimal : Decimal) :
    (decimal.places = 0 ∧ decimal.text = String.ofList (Nat.toDigits 10 decimal.digits)) ∨
      ∃ whole places, decimal.text = String.ofList (whole ++ '.' :: places) ∧
        AreDigits (whole ++ places) ∧ whole ≠ [] ∧ places ≠ [] ∧
        places.length = decimal.places ∧
        Nat.ofDigitChars 10 (whole ++ places) 0 = decimal.digits := by
  unfold text
  by_cases whole : decimal.places = 0
  · exact .inl ⟨whole, by simp [whole, paddedDigits]⟩
  · have positive := tenTo_pos decimal.places
    -- The digits behind the point are padded to the number of places.
    obtain ⟨places, same, digits, length, value⟩ := paddedDigits_spec
      (Nat.mod_lt decimal.digits positive) (Nat.pos_of_ne_zero whole)
    refine .inr ⟨Nat.toDigits 10 (decimal.digits / tenTo decimal.places), places, ?_, ?_,
      Nat.toDigits_ne_nil, ?_, length, ?_⟩
    · rw [if_neg whole]
      refine String.toList_inj.mp ?_
      simp only [same]
      simp [paddedDigits]
    · intro c member
      exact (List.mem_append.mp member).elim (areDigits_toDigits _ c) (digits c)
    · rintro rfl
      exact whole length.symm
    · rw [ofDigitChars_append_zero, Nat.ofDigitChars_ten_toDigits, value, length]
      exact Nat.div_add_mod _ _

namespace Binary64

/-- A finite number is neither an infinity nor no number. -/
def IsFinite (x : Binary64) : Prop := x.magnitudeBits < infinityBits

/-- A finite number is written as a decimal. -/
theorem magnitudeText_of_finite {x : Binary64} (finite : x.IsFinite) :
    x.magnitudeText = x.shortest.text := by
  have number : x.isNaN = false := decide_eq_false (Nat.not_lt.mpr (Nat.le_of_lt finite))
  have bounded : x.isInfinite = false := decide_eq_false (Nat.ne_of_lt finite)
  simp [magnitudeText, number, bounded]

end Binary64

/-- A finite number is written as digits with a point among them, which read back. -/
theorem Layout.decimalText_spec {x : Binary64} (finite : x.IsFinite) :
    ∃ whole places, Layout.decimalText x =
        (if x.isNegative then "---" else "") ++ String.ofList (whole ++ '.' :: places) ∧
      AreDigits (whole ++ places) ∧ whole ≠ [] ∧ places ≠ [] ∧
      Binary64.ofDecimal x.isNegative ⟨Nat.ofDigitChars 10 (whole ++ places) 0, places.length⟩ =
        x := by
  -- The shortest digits are read back as the number, so only their layout is left.
  have reads := Binary64.decimalBits_shortest finite
  have back : ∀ {decimal : Decimal}, Binary64.decimalBits decimal = x.magnitudeBits →
      Binary64.ofDecimal x.isNegative decimal = x := by
    intro decimal same
    unfold Binary64.decimalBits at same
    rw [Binary64.ofDecimal, same, Binary64.ofMagnitude_self]
  unfold decimalText
  rw [Binary64.magnitudeText_of_finite finite]
  generalize x.shortest = decimal at *
  obtain ⟨digits, count⟩ := decimal
  rcases Decimal.text_spec ⟨digits, count⟩ with
    ⟨whole, same⟩ | ⟨whole, places, same, areDigits, some, some', length, value⟩
  · -- A whole number gets a point and a zero, which is the same fraction.
    simp only at whole same
    subst whole
    have none : '.' ∉ Nat.toDigits 10 digits := fun member =>
      absurd (areDigits_toDigits digits '.' member) (by decide)
    refine ⟨Nat.toDigits 10 digits, ['0'], ?_, ?_, Nat.toDigits_ne_nil, by simp, back ?_⟩
    · refine String.toList_inj.mp ?_
      simp [same, String.contains_char_eq, none]
    · intro c member
      rcases List.mem_append.mp member with member | member
      · exact areDigits_toDigits digits c member
      · rw [List.mem_singleton.mp member]
        rfl
    · rw [ofDigitChars_append_zero, Nat.ofDigitChars_ten_toDigits, ← reads]
      exact Binary64.decimalBits_tenfold digits
  -- A fraction has its point already.
  · refine ⟨whole, places, ?_, areDigits, some, some', back ?_⟩
    · refine String.toList_inj.mp ?_
      simp [same, String.contains_char_eq]
    · rw [value, length]
      exact reads

end ArgSchema
