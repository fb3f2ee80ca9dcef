import ArgSchema.Proofs.Lexer.Gaps

/-! Lines: what is taken in front of a line end is the same whatever follows the line end. -/

namespace ArgSchema

/-- A line end is below every byte that a character goes on with. -/
theorem Utf8.low_of_lead? {first : UInt8} : ∀ lead ∈ lead? first, byte '\n' < lead.low := by
  -- In each row of the table the bytes that follow are high ones.
  have low : ((lead? first).map (·.low)).all (byte '\n' < ·) = true := by
    fun_cases lead? first <;> rfl
  intro lead member
  rw [member] at low
  exact of_decide_eq_true low

/-- Bytes that end with a line end. -/
def EndsLine (bytes : Bytes) : Prop := bytes.getLast? = some (byte '\n')

namespace EndsLine

variable {bytes front : Bytes} {b : UInt8}

/-- Bytes that end with a line end are not empty. -/
theorem ne_nil (ends : EndsLine bytes) : bytes ≠ [] := by
  rintro rfl
  cases ends

/-- More bytes in front leave the line end last. -/
theorem cons (ends : EndsLine bytes) (b : UInt8) : EndsLine (b :: bytes) := by
  obtain ⟨c, rest, rfl⟩ := List.exists_cons_of_ne_nil ends.ne_nil
  rwa [EndsLine, List.getLast?_cons_cons]

/-- Some bytes are there. -/
theorem length_pos (ends : EndsLine bytes) : 0 < bytes.length := List.length_pos_iff.mpr ends.ne_nil

/-- Behind solid bytes the line end is still to come. -/
theorem of_append (ends : EndsLine (front ++ bytes)) (solid : Solid front) : EndsLine bytes := by
  -- The last byte is that of the back, unless the back is empty and the front ends the line.
  unfold EndsLine Solid at *
  rw [List.getLast?_append] at ends
  cases last : bytes.getLast? with
  | none => exact absurd (by simpa [last] using ends) solid
  | some c => simpa [last] using ends

/-- Behind a byte that is no line end the line end is still to come. -/
theorem tail (ends : EndsLine (b :: bytes)) (other : b ≠ byte '\n') : EndsLine bytes :=
  of_append (show EndsLine ([b] ++ bytes) from ends) (solid_of_forall (by simpa using other))

/-- Bytes behind a line end make no difference to the first byte. -/
theorem head?_append (ends : EndsLine bytes) (more : Bytes) : (bytes ++ more).head? = bytes.head? :=
  List.head?_append_of_ne_nil _ ends.ne_nil

/-- Two bytes that stand first still do with more bytes behind a line end. -/
theorem take_two_append (ends : EndsLine bytes) (more : Bytes) {b c : UInt8} (other : b ≠ byte '\n') :
    (bytes ++ more).take 2 = [b, c] ↔ bytes.take 2 = [b, c] := by
  obtain ⟨first, rest, rfl⟩ := List.exists_cons_of_ne_nil ends.ne_nil
  cases rest with
  | nil =>
    -- A single byte is the line end.
    obtain rfl : first = byte '\n' := Option.some.inj ends
    simp [other.symm]
  | cons second rest => simp

section Taken

variable {P : UInt8 → Bool} (ends : EndsLine bytes) (line : P (byte '\n') = false)

include ends line

/-- Bytes start with some that fit, and stop fitting at the line end at the latest. -/
theorem exists_taken : ∃ front back, bytes = front ++ back ∧ (∀ b ∈ front, P b = true) ∧
    EndsLine back ∧ ∀ b ∈ back.head?, P b = false := by
  -- The front has no line end, so the line end is in the back.
  obtain ⟨front, back, rfl, all, stop⟩ := Lexeme.exists_taken P bytes
  refine ⟨front, back, rfl, all, ends.of_append (solid_of_forall fun b member => ?_), stop⟩
  rintro rfl
  have fits := all _ member
  rw [line] at fits
  cases fits

/-- Bytes behind a line end are not taken. -/
theorem takeWhile_append (more : Bytes) : (bytes ++ more).takeWhile P = bytes.takeWhile P := by
  -- The taking stops in front of the line end at the latest, and there it stops with more bytes
  -- too.
  obtain ⟨front, back, rfl, all, lasts, stop⟩ := exists_taken ends line
  rw [List.append_assoc, takeWhile_append_stop all (by rwa [lasts.head?_append]),
    takeWhile_append_stop all stop]

/-- Not all bytes are taken. -/
theorem length_takeWhile_lt : (bytes.takeWhile P).length < bytes.length := by
  -- At least the line end is left.
  obtain ⟨front, back, rfl, all, lasts, stop⟩ := exists_taken ends line
  have some := lasts.length_pos
  rw [takeWhile_append_stop all stop, List.length_append]
  omega

end Taken

/-- The first of several lines does not depend on what follows them. -/
theorem firstLine_append (ends : EndsLine bytes) (more : Bytes) :
    Cursor.firstLine (bytes ++ more) = Cursor.firstLine bytes := by
  unfold Cursor.firstLine
  simp only [ends.takeWhile_append (P := (· ≠ byte '\n')) (by decide)]

/-- A character is read the same from bytes that end with a line end, whatever follows them. -/
theorem readFollowing_append (ends : EndsLine bytes) (following value : Nat) {low : UInt8}
    (high : UInt8) (apart : byte '\n' < low) (more : Bytes) :
    (Utf8.readFollowing following value low high (bytes ++ more)).1 =
      (Utf8.readFollowing following value low high bytes).1 := by
  induction following generalizing value low high bytes with
  | zero => rfl
  | succ following ih =>
    obtain ⟨b, after, rfl⟩ := List.exists_cons_of_ne_nil ends.ne_nil
    simp only [List.cons_append, Utf8.readFollowing]
    split
    · next fits =>
      -- A line end does not go on with a character.
      refine ih (ends.tail ?_) _ _ (by decide)
      rintro rfl
      exact absurd fits.1 (UInt8.not_le.mpr apart)
    · rfl

/-- The character that starts with a byte in front of a line end does not go on behind that. -/
theorem readChar_take (ends : EndsLine bytes) (first : UInt8) (count : Nat) (more : Bytes) :
    (Utf8.readChar first ((bytes ++ more).take count)).1 =
      (Utf8.readChar first (bytes.take count)).1 := by
  -- Taking as many bytes as there are does not reach what is behind them.
  by_cases long : count ≤ bytes.length
  · rw [List.take_append_of_le_length long]
  · -- Fewer bytes are left than a character may have, and the line end is one of them.
    rw [List.take_append, List.take_of_length_le (Nat.le_of_not_le long)]
    unfold Utf8.readChar
    split
    · next lead announced =>
      exact readFollowing_append ends _ _ _ (Utf8.low_of_lead? lead announced) _
    · rfl

end EndsLine

end ArgSchema
