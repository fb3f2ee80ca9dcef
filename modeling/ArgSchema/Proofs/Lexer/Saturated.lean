import ArgSchema.Proofs.Lexer.Literals
import Mathlib.Algebra.Group.Int.Defs

/-! Saturation: an integer literal of any length is read as its number, clamped to 64 bits. -/

namespace ArgSchema

/-- Digits, with or without a sign, are read as their number with a warning if it was clamped. -/
theorem Cursor.nextToken_saturates (cursor : Cursor) (negative : Bool) {chars : List Char}
    (some : chars ≠ []) (digits : AreDigits chars) {after : Bytes}
    (found : cursor.rest =
      Utf8.encode ((if negative then "---" else "") ++ String.ofList chars) ++ after)
    (last : ∀ b ∈ after.head?, isDigit b = false)
    (whole : ∀ rest, after = byte '.' :: rest → rest.head?.any isDigit = false)
    (breadcrumb : Breadcrumb) :
    let value := Lexeme.signed negative (Nat.ofDigitChars 10 chars 0)
    let text := (if negative then "-" else "") ++ String.ofList chars
    ∃ stop, stop.rest = after ∧
      let span := cursor.spanTo stop breadcrumb
      cursor.nextToken breadcrumb =
        ⟨if value < -2 ^ 63 then [.warning (.integerUnderflow text) span]
          else if 2 ^ 63 - 1 < value then [.warning (.integerOverflow text) span]
          else [],
        .ok ⟨.number (max (-2 ^ 63) (min (2 ^ 63 - 1) value)), text, span⟩, stop⟩ := by
  intro value text
  obtain ⟨bytes, stored, length, all, sum⟩ := Lexeme.bytes_of_digits digits
  have filled : bytes ≠ [] := by
    rintro rfl
    exact some (List.length_eq_zero_iff.mp length.symm)
  obtain ⟨first, body, shape, start, dashes, count, recognized⟩ :=
    Lexeme.recognize_number negative filled all
  have read : Utf8.decodeLossy bytes = String.ofList chars := by
    rw [← stored, Utf8.decodeLossy_encode]
  have given := Lexeme.integer_eq negative bytes
  rw [sum, read] at given
  -- The bytes of the literal make one lexeme, which is an integer.
  rw [Utf8.encode_append, stored, shape, List.cons_append] at found
  have lexeme : Lexeme.recognize first (body ++ after) =
      Lexeme.literal (Lexeme.integer negative bytes) dashes bytes.length := by
    rw [recognized after, Lexeme.number_whole negative dashes all last whole]
  have content : (Lexeme.recognize first (body ++ after)).content =
      .token (.number (max leastInteger (min greatestInteger value))) text
        (Lexeme.outOfRange? value text) := by
    rw [lexeme, given]
    rfl
  refine ⟨cursor.advance (Lexeme.recognize first (body ++ after)).length, ?_, ?_⟩
  · -- It ends in front of what stands behind the digits.
    rw [rest_advance, found, lexeme]
    show (first :: (body ++ after)).drop (dashes + bytes.length - 1 + 1) = after
    rw [← count, List.drop_succ_cons, List.drop_left]
  · have least : (-2 ^ 63 : Int) = leastInteger := rfl
    have greatest : (2 ^ 63 - 1 : Int) = greatestInteger := rfl
    rw [nextToken_of_token found start content, least, greatest]
    congr 1
    -- A warning is there if the number is beyond one of the two bounds.
    unfold Lexeme.outOfRange?
    split
    · rfl
    · split <;> rfl

/-- A number with a leading zero that is one too great is clamped, up to the semicolon behind it. -/
theorem nextToken_saturates_above :
    let source := Utf8.encode "09223372036854775808;"
    ∃ stop, stop.rest = [byte ';'] ∧
      let span := (Cursor.ofSource source).spanTo stop ["a.adl"]
      (Cursor.ofSource source).nextToken ["a.adl"] =
        ⟨[.warning (.integerOverflow "09223372036854775808") span],
        .ok ⟨.number 9223372036854775807, "09223372036854775808", span⟩, stop⟩ := by
  have digits : AreDigits "09223372036854775808".toList :=
    List.all_eq_true.mp (by decide)
  -- The leading zero is a digit like any other, and the number lies one above the range.
  exact Cursor.nextToken_saturates (.ofSource (Utf8.encode "09223372036854775808;")) false
    (by decide) digits (by decide) (by rintro b ⟨⟩; decide) (by simp) ["a.adl"]

end ArgSchema
