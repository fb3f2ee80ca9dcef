import ArgSchema.Proofs.Lexer.Names

/-! Boundaries: where the bytes of a text can be cut without damage to a character. -/

namespace ArgSchema

namespace Utf8

/-- Behind the bytes of one character, the bytes of characters go on with those of the others. -/
theorem exists_of_encodeChar_append {chars : List Char} {c : Char} {back : Bytes}
    (bytes : chars.flatMap String.utf8EncodeChar = String.utf8EncodeChar c ++ back) :
    ∃ rest, chars = c :: rest ∧ rest.flatMap String.utf8EncodeChar = back := by
  obtain ⟨first, more, own, read⟩ := readChar_encodeChar c back
  cases chars with
  | nil =>
    rw [own] at bytes
    cases bytes
  | cons d rest =>
    -- Both start with the character that is read from the bytes.
    obtain ⟨first', more', own', read'⟩ :=
      readChar_encodeChar d (rest.flatMap String.utf8EncodeChar)
    rw [List.flatMap_cons, own, own', List.cons_append, List.cons_append] at bytes
    obtain ⟨rfl, same⟩ := List.cons.inj bytes
    rw [same, read] at read'
    obtain ⟨char, left⟩ := Prod.mk.inj read'
    exact ⟨rest, by rw [Option.some.inj char], left.symm⟩

/-- Behind the bytes of some characters, the bytes of characters go on with those of the others. -/
theorem exists_of_chars_append {front chars : List Char} {back : Bytes}
    (bytes : chars.flatMap String.utf8EncodeChar = front.flatMap String.utf8EncodeChar ++ back) :
    ∃ rest, chars = front ++ rest ∧ rest.flatMap String.utf8EncodeChar = back := by
  induction front generalizing chars with
  | nil => exact ⟨chars, rfl, bytes⟩
  | cons c front ih =>
    rw [List.flatMap_cons, List.append_assoc] at bytes
    -- No encoding is the front of another, so the first characters are the same.
    obtain ⟨more, rfl, behind⟩ := exists_of_encodeChar_append bytes
    obtain ⟨rest, rfl, left⟩ := ih behind
    exact ⟨rest, rfl, left⟩

/-- Behind the bytes of one text, the bytes of a text go on with those of another. -/
theorem exists_of_encode_append {text first : String} {back : Bytes}
    (bytes : encode text = encode first ++ back) :
    ∃ second, text = first ++ second ∧ encode second = back := by
  -- The characters are divided where the bytes are.
  obtain ⟨rest, same, left⟩ := exists_of_chars_append bytes
  refine ⟨String.ofList rest, ?_, by rw [encode_ofList, left]⟩
  rw [← String.ofList_toList (s := text), same, String.ofList_append, String.ofList_toList]

/-- Bytes of a text. -/
def IsText (bytes : Bytes) : Prop := ∃ text, encode text = bytes

/-- The bytes of a text are a text. -/
theorem isText_encode (text : String) : IsText (encode text) := ⟨text, rfl⟩

namespace IsText

variable {front back bytes : Bytes}

/-- A text is read from its bytes without a loss. -/
theorem encode_decodeLossy (text : IsText bytes) : encode (decodeLossy bytes) = bytes := by
  obtain ⟨text, rfl⟩ := text
  rw [Utf8.decodeLossy_encode]

/-- Bytes below 128 are a text. -/
theorem of_small (small : ∀ b ∈ bytes, b < 0x80) : IsText bytes := ⟨ascii bytes, encode_ascii small⟩

/-- Texts one behind the other are a text. -/
theorem append (first : IsText front) (second : IsText back) : IsText (front ++ back) := by
  obtain ⟨first, rfl⟩ := first
  obtain ⟨second, rfl⟩ := second
  exact ⟨first ++ second, encode_append first second⟩

/-- Behind a text, a text goes on with a text. -/
theorem behind (whole : IsText (front ++ back)) (first : IsText front) : IsText back := by
  -- Decoding is deterministic, so what is behind a text in a text is one too.
  obtain ⟨whole, bytes⟩ := whole
  obtain ⟨first, rfl⟩ := first
  obtain ⟨second, -, left⟩ := exists_of_encode_append bytes
  exact ⟨second, left⟩

/-- Behind a byte below 128, a text goes on with a text. -/
theorem tail {b : UInt8} (whole : IsText (b :: back)) (small : b < 0x80) : IsText back :=
  @behind [b] back whole (of_small (by simpa using small))

/-- In front of a byte below 128, or of the end, a text can be cut. -/
theorem cut (whole : IsText (front ++ back)) (start : ∀ b ∈ back.head?, b < 0x80) :
    IsText front ∧ IsText back := by
  -- A byte below 128 is no continuation of a character.
  obtain ⟨whole, bytes⟩ := whole
  obtain ⟨first, second, -, left, right⟩ := exists_of_encode_eq_append bytes start
  exact ⟨⟨first, left⟩, ⟨second, right⟩⟩

/-- A text can be cut where bytes are taken up to one below 128. -/
theorem takeWhile {P : UInt8 → Bool} (high : ∀ b, 0x80 ≤ b → P b = true) (whole : IsText bytes) :
    IsText (bytes.takeWhile P) := by
  -- The cut is in front of a byte that fails the test, which therefore is not a high one.
  rw [← List.takeWhile_append_dropWhile (p := P) (l := bytes)] at whole
  refine (whole.cut fun b member => UInt8.not_le.mp fun large => ?_).1
  have stop := List.head?_dropWhile_not P bytes
  rw [Option.mem_def.mp member] at stop
  simp [high b large] at stop

end IsText

end Utf8

end ArgSchema
