import ArgSchema.Source

/-! Encoding: bytes of texts are read back, and lossy reading keeps bytes below 128 in place. -/

namespace ArgSchema

namespace Utf8

/-- The text of bytes that are one character each. -/
def ascii (bytes : Bytes) : String := String.ofList (bytes.map fun b => Char.ofNat b.toNat)

/-- A byte below 128 is a character of its own. -/
theorem decodeParts_cons_ascii {b : UInt8} (small : b < 0x80) (rest : Bytes) :
    decodeParts (b :: rest) = some (Char.ofNat b.toNat) :: decodeParts rest := by
  -- A byte below 128 leads nothing but itself.
  rw [decodeParts]
  have read : readChar b rest = (some (Char.ofNat b.toNat), rest) := by
    simp [readChar, lead?, small, readFollowing]
  rw [read]

/-- Text that starts with a byte below 128 starts with the character of that byte. -/
theorem decodeLossy_cons_ascii {b : UInt8} (small : b < 0x80) (rest : Bytes) :
    decodeLossy (b :: rest) =
      String.ofList (Char.ofNat b.toNat :: (decodeLossy rest).toList) := by
  simp [decodeLossy, decodeParts_cons_ascii small]

/-- Bytes below 128 are read character by character. -/
theorem decodeLossy_eq_ascii {bytes : Bytes} (small : ∀ b ∈ bytes, b < 0x80) :
    decodeLossy bytes = ascii bytes := by
  -- By induction on the bytes, each of which is a character.
  induction bytes with
  | nil => simp [decodeLossy, decodeParts, ascii]
  | cons b rest ih =>
    rw [decodeLossy_cons_ascii (small b (by simp)), ih fun c member => small c (by simp [member])]
    simp [ascii]

/-- The bytes of a text are those of its characters. -/
theorem encode_ofList (chars : List Char) :
    encode (String.ofList chars) = chars.flatMap String.utf8EncodeChar := by
  simp [encode]

/-- Texts are encoded piece by piece. -/
theorem encode_append (a b : String) : encode (a ++ b) = encode a ++ encode b := by
  simp [encode]

/-- Joined texts are encoded one after the other. -/
theorem encode_join (texts : List String) : encode (String.join texts) = texts.flatMap encode := by
  rw [encode, String.toList_join, List.flatMap_assoc]
  rfl

section Characters

/-- A character below 128 is one byte. -/
theorem encodeChar_ascii {c : Char} (small : c.toNat < 128) :
    String.utf8EncodeChar c = [UInt8.ofNat c.toNat] := by
  unfold String.utf8EncodeChar
  rw [Char.toNat_val, if_pos (by omega)]

/-- Any other character is some bytes from 128 on. -/
theorem encodeChar_high {c : Char} (large : 128 ≤ c.toNat) :
    String.utf8EncodeChar c ≠ [] ∧ ∀ b ∈ String.utf8EncodeChar c, 0x80 ≤ b := by
  unfold String.utf8EncodeChar
  rw [Char.toNat_val, if_neg (by omega)]
  -- Each byte of the code adds to a mark of at least 128.
  have bound : ∀ {low high : Nat}, 0x80 ≤ high → low + high < 256 →
      (0x80 : UInt8) ≤ UInt8.ofNat (low + high) := by
    intro low high above below
    rw [UInt8.le_iff_toNat_le, UInt8.toNat_ofNat']
    have byte : (low + high) % 2 ^ 8 = low + high := Nat.mod_eq_of_lt below
    rw [byte]
    exact Nat.le_trans above (Nat.le_add_left _ _)
  split
  · simp only [List.mem_cons, List.not_mem_nil, or_false]
    refine ⟨by simp, ?_⟩
    rintro b (rfl | rfl) <;> exact bound (by omega) (by omega)
  · split
    · simp only [List.mem_cons, List.not_mem_nil, or_false]
      refine ⟨by simp, ?_⟩
      rintro b (rfl | rfl | rfl) <;> exact bound (by omega) (by omega)
    · simp only [List.mem_cons, List.not_mem_nil, or_false]
      refine ⟨by simp, ?_⟩
      rintro b (rfl | rfl | rfl | rfl) <;> exact bound (by omega) (by omega)

/-- The code of a byte that holds a small number. -/
theorem toNat_ofNat_byte {n : Nat} (small : n < 256) : (UInt8.ofNat n).toNat = n := by
  rw [UInt8.toNat_ofNat']
  exact Nat.mod_eq_of_lt small

/-- The first byte of a character announces those that follow it. -/
theorem lead?_of_toNat {b : UInt8} {n : Nat} (same : b.toNat = n) : lead? b =
    if n < 0x80 then some ⟨n, 0x80, 0xBF, 0⟩
    else if n < 0xC2 then none
    else if n < 0xE0 then some ⟨n - 0xC0, 0x80, 0xBF, 1⟩
    else if n = 0xE0 then some ⟨0, 0xA0, 0xBF, 2⟩
    else if n = 0xED then some ⟨0xD, 0x80, 0x9F, 2⟩
    else if n < 0xF0 then some ⟨n - 0xE0, 0x80, 0xBF, 2⟩
    else if n = 0xF0 then some ⟨0, 0x90, 0xBF, 3⟩
    else if n < 0xF4 then some ⟨n - 0xF0, 0x80, 0xBF, 3⟩
    else if n = 0xF4 then some ⟨4, 0x80, 0x8F, 3⟩
    else none := by
  subst same
  simp only [lead?, UInt8.lt_iff_toNat_lt, ← UInt8.toNat_inj]
  rfl

/-- A following byte that fits adds six bits. -/
theorem readFollowing_ofNat {following value n : Nat} {low high : UInt8} {rest : Bytes}
    (small : n < 64) (least : low.toNat ≤ n + 0x80) (most : n + 0x80 ≤ high.toNat) :
    readFollowing (following + 1) value low high (UInt8.ofNat (n + 0x80) :: rest) =
      readFollowing following (value * 64 + n) 0x80 0xBF rest := by
  -- The byte is between the bounds, so its six bits are read and the rest goes on.
  have code := toNat_ofNat_byte (show n + 0x80 < 256 by omega)
  have fits : low ≤ UInt8.ofNat (n + 0x80) ∧ UInt8.ofNat (n + 0x80) ≤ high := by
    simp only [UInt8.le_iff_toNat_le, code]
    exact ⟨least, most⟩
  rw [readFollowing, if_pos fits, code, Nat.add_sub_cancel]

/-- Two bytes are read as the character that they hold. -/
theorem readChar_two {a b : Nat} (first : 2 ≤ a ∧ a < 32) (second : b < 64) (rest : Bytes) :
    readChar (UInt8.ofNat (a + 0xC0)) (UInt8.ofNat (b + 0x80) :: rest) =
      (some (Char.ofNat (a * 64 + b)), rest) := by
  -- The first byte tells the length, and the second holds the low bits.
  unfold readChar
  rw [lead?_of_toNat (toNat_ofNat_byte (by omega)), if_neg (by omega), if_neg (by omega),
    if_pos (by omega)]
  simp only
  rw [readFollowing_ofNat second (by simp) (by simp; omega), readFollowing, Nat.add_sub_cancel]

/-- Three bytes are read as the character that they hold, unless two would do or it is none. -/
theorem readChar_three {a b c : Nat} (first : a < 16) (second : b < 64) (third : c < 64)
    (long : a = 0 → 32 ≤ b) (plain : a = 13 → b < 32) (rest : Bytes) :
    readChar (UInt8.ofNat (a + 0xE0)) (UInt8.ofNat (b + 0x80) :: UInt8.ofNat (c + 0x80) :: rest) =
      (some (Char.ofNat ((a * 64 + b) * 64 + c)), rest) := by
  unfold readChar
  rw [lead?_of_toNat (toNat_ofNat_byte (by omega)), if_neg (by omega), if_neg (by omega),
    if_neg (by omega)]
  -- The second byte is narrowed for the least characters and for those in front of the surrogates.
  by_cases least : a = 0
  · subst least
    rw [if_pos rfl]
    simp only
    rw [readFollowing_ofNat second (by simp; omega) (by simp; omega),
      readFollowing_ofNat third (by simp) (by simp; omega), readFollowing]
  · rw [if_neg (by omega)]
    by_cases last : a = 13
    · subst last
      rw [if_pos rfl]
      simp only
      rw [readFollowing_ofNat second (by simp) (by simp; omega),
        readFollowing_ofNat third (by simp) (by simp; omega), readFollowing]
    · rw [if_neg (by omega), if_pos (by omega)]
      simp only
      rw [readFollowing_ofNat second (by simp) (by simp; omega),
        readFollowing_ofNat third (by simp) (by simp; omega), readFollowing, Nat.add_sub_cancel]

/-- Four bytes are read as the character that they hold, unless three would do or it is none. -/
theorem readChar_four {a b c d : Nat} (first : a ≤ 4) (second : b < 64) (third : c < 64)
    (fourth : d < 64) (long : a = 0 → 16 ≤ b) (plain : a = 4 → b < 16) (rest : Bytes) :
    readChar (UInt8.ofNat (a + 0xF0)) (UInt8.ofNat (b + 0x80) :: UInt8.ofNat (c + 0x80) ::
      UInt8.ofNat (d + 0x80) :: rest) =
      (some (Char.ofNat (((a * 64 + b) * 64 + c) * 64 + d)), rest) := by
  unfold readChar
  rw [lead?_of_toNat (toNat_ofNat_byte (by omega)), if_neg (by omega), if_neg (by omega),
    if_neg (by omega), if_neg (by omega), if_neg (by omega), if_neg (by omega)]
  -- The second byte is narrowed for the least and for the greatest characters.
  by_cases least : a = 0
  · subst least
    rw [if_pos rfl]
    simp only
    rw [readFollowing_ofNat second (by simp; omega) (by simp; omega),
      readFollowing_ofNat third (by simp) (by simp; omega),
      readFollowing_ofNat fourth (by simp) (by simp; omega), readFollowing]
  · rw [if_neg (by omega)]
    by_cases last : a = 4
    · subst last
      rw [if_neg (by omega), if_pos rfl]
      simp only
      rw [readFollowing_ofNat second (by simp) (by simp; omega),
        readFollowing_ofNat third (by simp) (by simp; omega),
        readFollowing_ofNat fourth (by simp) (by simp; omega), readFollowing]
    · rw [if_pos (by omega)]
      simp only
      rw [readFollowing_ofNat second (by simp) (by simp; omega),
        readFollowing_ofNat third (by simp) (by simp; omega),
        readFollowing_ofNat fourth (by simp) (by simp; omega), readFollowing, Nat.add_sub_cancel]

/-- The bytes of a character are read as the character. -/
theorem readChar_encodeChar (c : Char) (rest : Bytes) :
    ∃ first more, String.utf8EncodeChar c = first :: more ∧
      readChar first (more ++ rest) = (some c, rest) := by
  have valid : c.toNat < 0xD800 ∨ 0xDFFF < c.toNat ∧ c.toNat < 0x110000 := c.valid
  have again := Char.ofNat_toNat c
  unfold String.utf8EncodeChar
  rw [Char.toNat_val]
  -- From here on only the code of the character matters, by how many bytes it takes.
  generalize c.toNat = v at *
  by_cases one : v ≤ 0x7F
  -- One, two, three or four bytes, with the code put together again in each case.
  · refine ⟨_, _, if_pos one, ?_⟩
    unfold readChar
    rw [lead?_of_toNat (toNat_ofNat_byte (by omega)), if_pos (by omega)]
    simp [readFollowing, again]
  · rw [if_neg one]
    by_cases two : v ≤ 0x7FF
    · refine ⟨_, _, if_pos two, ?_⟩
      refine (readChar_two (by omega) (by omega) rest).trans ?_
      rw [show v / 64 % 32 * 64 + v % 64 = v by omega, again]
    · rw [if_neg two]
      by_cases three : v ≤ 0xFFFF
      · refine ⟨_, _, if_pos three, ?_⟩
        refine (readChar_three (by omega) (by omega) (by omega) (by omega) (by omega) rest).trans ?_
        rw [show (v / 4096 % 16 * 64 + v / 64 % 64) * 64 + v % 64 = v by omega, again]
      · refine ⟨_, _, if_neg three, ?_⟩
        refine (readChar_four (by omega) (by omega) (by omega) (by omega) (by omega) (by omega)
          rest).trans ?_
        rw [show ((v / 262144 % 8 * 64 + v / 4096 % 64) * 64 + v / 64 % 64) * 64 + v % 64 = v by
          omega, again]

end Characters

/-- The bytes of characters are read as the characters. -/
theorem decodeParts_encode (chars : List Char) :
    decodeParts (chars.flatMap String.utf8EncodeChar) = chars.map some := by
  -- By induction on the characters, each of which is read back from its bytes.
  induction chars with
  | nil => rw [List.flatMap_nil, decodeParts, List.map_nil]
  | cons c rest ih =>
    obtain ⟨first, more, same, read⟩ := readChar_encodeChar c (rest.flatMap String.utf8EncodeChar)
    rw [List.flatMap_cons, same, List.cons_append, decodeParts, read, ih, List.map_cons]

/-- The bytes of a text are read as the text. -/
theorem decodeLossy_encode (text : String) : decodeLossy (encode text) = text := by
  simp [decodeLossy, encode, decodeParts_encode, Function.comp_def]

/-- Texts of the same bytes are the same. -/
theorem encode_inj {a b : String} (same : encode a = encode b) : a = b := by
  rw [← decodeLossy_encode a, same, decodeLossy_encode]

/-- Only the empty text has no bytes. -/
theorem encode_eq_nil {text : String} : encode text = [] ↔ text = "" :=
  ⟨fun none => encode_inj none, fun none => by rw [none]; rfl⟩

/-- In front of a byte below 128 no character is cut. -/
theorem exists_chars_of_append {chars : List Char} {front back : Bytes}
    (bytes : chars.flatMap String.utf8EncodeChar = front ++ back)
    (start : ∀ b ∈ back.head?, b < 0x80) :
    ∃ first second, chars = first ++ second ∧ first.flatMap String.utf8EncodeChar = front ∧
      second.flatMap String.utf8EncodeChar = back := by
  -- By induction on the characters, up to the one that the front ends with.
  induction chars generalizing front with
  | nil =>
    obtain ⟨rfl, rfl⟩ := List.append_eq_nil_iff.mp bytes.symm
    exact ⟨[], [], rfl, rfl, rfl⟩
  | cons c rest ih =>
    by_cases none : front = []
    · subst none
      exact ⟨[], c :: rest, rfl, rfl, bytes⟩
    rcases List.append_eq_append_iff.mp bytes with ⟨more, rfl, same⟩ | ⟨more, same, rfl⟩
    · -- The whole character stands in front.
      obtain ⟨first, second, rfl, rfl, rfl⟩ := ih same
      exact ⟨c :: first, second, rfl, rfl, rfl⟩
    · cases more with
      | nil => exact ⟨[c], rest, rfl, by simpa using same, rfl⟩
      | cons b more =>
        -- A character that is cut has bytes from 128 on only.
        have small : b < 0x80 := start b rfl
        have several := congrArg List.length same
        have size := List.length_pos_iff.mpr none
        rw [List.length_append, List.length_cons] at several
        by_cases ascii : c.toNat < 128
        · rw [encodeChar_ascii ascii, List.length_singleton] at several
          omega
        · have large : 0x80 ≤ b := (encodeChar_high (Nat.le_of_not_lt ascii)).2 b (by simp [same])
          exact absurd small (UInt8.not_lt.mpr large)

/-- In front of a byte below 128 a text is two texts. -/
theorem exists_of_encode_eq_append {text : String} {front back : Bytes}
    (bytes : encode text = front ++ back) (start : ∀ b ∈ back.head?, b < 0x80) :
    ∃ first second, text = first ++ second ∧ encode first = front ∧ encode second = back := by
  obtain ⟨first, second, same, rfl, rfl⟩ := exists_chars_of_append bytes start
  refine ⟨String.ofList first, String.ofList second, ?_, encode_ofList first, encode_ofList second⟩
  rw [← String.ofList_append, ← same, String.ofList_toList]

end Utf8

end ArgSchema
