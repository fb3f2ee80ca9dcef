/-! Text as UTF-8 bytes: strict reading, and lossy reading of bytes cut out of a character. -/

namespace ArgSchema

/-- Raw bytes of a source file or of a piece of one. -/
abbrev Bytes := List UInt8

namespace Utf8

/-- The bytes a text is stored as. -/
def encode (text : String) : Bytes :=
  -- Each character contributes one to four bytes.
  text.toList.flatMap String.utf8EncodeChar

/-- What the first byte of a multi-byte character announces. -/
structure Lead where
  /-- Bits the first byte contributes to the code point. -/
  value : Nat
  /-- Least second byte that keeps the character in range. -/
  low : UInt8
  /-- Greatest second byte that keeps the character in range. -/
  high : UInt8
  /-- Number of bytes that follow. -/
  following : Nat

/-- The announcement of a first byte, if a character can start with it. -/
def lead? (byte : UInt8) : Option Lead :=
  -- The narrowed second bytes exclude overlong forms, surrogates and too large code points.
  if byte < 0x80 then some ⟨byte.toNat, 0x80, 0xBF, 0⟩
  else if byte < 0xC2 then none
  else if byte < 0xE0 then some ⟨byte.toNat - 0xC0, 0x80, 0xBF, 1⟩
  else if byte = 0xE0 then some ⟨0, 0xA0, 0xBF, 2⟩
  else if byte = 0xED then some ⟨0xD, 0x80, 0x9F, 2⟩
  else if byte < 0xF0 then some ⟨byte.toNat - 0xE0, 0x80, 0xBF, 2⟩
  else if byte = 0xF0 then some ⟨0, 0x90, 0xBF, 3⟩
  else if byte < 0xF4 then some ⟨byte.toNat - 0xF0, 0x80, 0xBF, 3⟩
  else if byte = 0xF4 then some ⟨4, 0x80, 0x8F, 3⟩
  else none

/-- Reads the bytes that follow a first byte, stopping before one that does not fit. -/
def readFollowing : Nat → Nat → UInt8 → UInt8 → Bytes → Option Char × Bytes
  | 0, value, _, _, rest => (some (Char.ofNat value), rest)
  | _ + 1, _, _, _, [] => (none, [])
  | following + 1, value, low, high, byte :: rest =>
    -- Only the second byte has a narrowed range.
    if low ≤ byte ∧ byte ≤ high then
      readFollowing following (value * 64 + (byte.toNat - 0x80)) 0x80 0xBF rest
    else (none, byte :: rest)

/-- Reading never hands back more bytes than it was given. -/
theorem readFollowing_length (following value : Nat) (low high : UInt8) (bytes : Bytes) :
    (readFollowing following value low high bytes).2.length ≤ bytes.length := by
  -- Each step either stops or drops one byte.
  induction following generalizing value low high bytes with
  | zero => simp [readFollowing]
  | succ following ih =>
    cases bytes with
    | nil => simp [readFollowing]
    | cons byte rest =>
      simp only [readFollowing]
      split
      · exact Nat.le_succ_of_le (ih ..)
      · simp

/-- The character a first byte and its followers form, or nothing for a maximal invalid part. -/
def readChar (byte : UInt8) (rest : Bytes) : Option Char × Bytes :=
  match lead? byte with
  | some lead => readFollowing lead.following lead.value lead.low lead.high rest
  | none => (none, rest)

/-- Reading a character leaves at most the bytes after its first one. -/
theorem readChar_length (byte : UInt8) (rest : Bytes) :
    (readChar byte rest).2.length ≤ rest.length := by
  -- What announces no other bytes takes none.
  unfold readChar
  split
  · exact readFollowing_length ..
  · simp

/-- The characters of a byte sequence, with nothing in place of each maximal invalid part. -/
def decodeParts : Bytes → List (Option Char)
  | [] => []
  | byte :: rest => (readChar byte rest).1 :: decodeParts (readChar byte rest).2
termination_by bytes => bytes.length
decreasing_by
  have := readChar_length byte rest
  simp only [List.length_cons]
  omega

/-- The text of a byte sequence, with U+FFFD in place of each maximal invalid part. -/
def decodeLossy (bytes : Bytes) : String :=
  String.ofList ((decodeParts bytes).map (·.getD '\uFFFD'))

/-- The text of a byte sequence, if every part of it is a character. -/
def decode? (bytes : Bytes) : Option String :=
  ((decodeParts bytes).mapM id).map String.ofList

end Utf8

end ArgSchema
