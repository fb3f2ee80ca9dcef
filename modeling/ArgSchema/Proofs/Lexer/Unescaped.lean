import ArgSchema.Proofs.Lexer.Recognized
import ArgSchema.Proofs.Text.Boundaries

/-! Unescaped text: what quotes hold is the text between them, character by character. -/

namespace ArgSchema

/-- The character that a backslash and another character stand for, if they stand for one. -/
def escapedChar? (c : Char) : Option Char :=
  if c = 'n' then some '\n'
  else if c = 't' then some '\t'
  else if c = 'r' then some '\r'
  else if c = '\\' then some '\\'
  else none

/-- Characters between quotes, and those that they stand for; raw quotes keep backslashes. -/
inductive Unescapes (raw : Bool) : List Char → List Char → Prop
  /-- Nothing. -/
  | none : Unescapes raw [] []
  /-- A character that is no quote, no backslash and no line end stands for itself. -/
  | plain {c body text} : c ≠ '"' → c ≠ '\\' → c ≠ '\n' → Unescapes raw body text →
      Unescapes raw (c :: body) (c :: text)
  /-- A backslash hides a quote. -/
  | quote {body text} : Unescapes raw body text → Unescapes raw ('\\' :: '"' :: body) ('"' :: text)
  /-- A backslash and a character stand for another one. -/
  | escape {mark c body text} : raw = false → escapedChar? mark = some c → Unescapes raw body text →
      Unescapes raw ('\\' :: mark :: body) (c :: text)
  /-- A backslash in front of any other character is kept. -/
  | kept {c body text} : c ≠ '"' → raw = true ∨ escapedChar? c = .none ∧ c ≠ '\n' →
      Unescapes raw body text → Unescapes raw ('\\' :: c :: body) ('\\' :: c :: text)

namespace Lexeme

/-- Plain bytes that run into the end of the input are not closed. -/
theorem quoted_endless {raw : Bool} {bytes : Bytes}
    (plain : ∀ b ∈ bytes, b ≠ byte '\n' ∧ b ≠ byte '"' ∧ b ≠ byte '\\') :
    quoted raw bytes = .endless := by
  -- No byte ends the text, so the end of the input is reached.
  induction bytes with
  | nil => rfl
  | cons b rest ih =>
    obtain ⟨line, quote, backslash⟩ := plain b (by simp)
    have more := ih fun other member => plain other (by simp [member])
    cases rest with
    | nil => rw [quoted, if_neg line, if_neg quote]
    | cons c rest => rw [quoted, if_neg line, if_neg quote, if_neg backslash, more]; rfl

/-- Plain bytes are taken one by one, also in front of the end. -/
theorem quoted_front {raw : Bool} {front : Bytes} (back : Bytes)
    (plain : ∀ b ∈ front, b ≠ byte '\n' ∧ b ≠ byte '"' ∧ b ≠ byte '\\') :
    quoted raw (front ++ back) = (quoted raw back).behind front front.length := by
  -- The scan needs a byte behind the front to stand still at, so the empty back is a case of its
  -- own.
  by_cases some : back = []
  · subst some
    rw [List.append_nil, quoted_endless plain]
    rfl
  · exact quoted_plain some plain

/-- The bytes of a character that means nothing in quotes mean nothing. -/
theorem plain_of_char {c : Char} (quote : c ≠ '"') (backslash : c ≠ '\\') (line : c ≠ '\n') :
    ∀ b ∈ String.utf8EncodeChar c, b ≠ byte '\n' ∧ b ≠ byte '"' ∧ b ≠ byte '\\' := by
  -- Each of the three is ASCII, and a byte of a character that is ASCII is the character's own.
  intro b member
  refine ⟨?_, ?_, ?_⟩ <;> rintro rfl
  · exact line (Utf8.eq_of_mem_encodeChar (by decide) member)
  · exact quote (Utf8.eq_of_mem_encodeChar (by decide) member)
  · exact backslash (Utf8.eq_of_mem_encodeChar (by decide) member)

/-- Bytes from 128 on mean nothing in quotes. -/
theorem plain_of_high {bytes : Bytes} (high : ∀ b ∈ bytes, 0x80 ≤ b) :
    ∀ b ∈ bytes, b ≠ byte '\n' ∧ b ≠ byte '"' ∧ b ≠ byte '\\' := fun b member =>
  ⟨ne_byte_of_high (high b member) (by decide), ne_byte_of_high (high b member) (by decide),
    ne_byte_of_high (high b member) (by decide)⟩

/-- The first byte of a character is followed by bytes from 128 on. -/
theorem exists_encodeChar_eq (c : Char) : ∃ first more, String.utf8EncodeChar c = first :: more ∧
    ∀ b ∈ more, 0x80 ≤ b := by
  -- An ASCII character is its one byte, and any other has high bytes only.
  by_cases ascii : c.toNat < 128
  · exact ⟨_, [], Utf8.encodeChar_ascii ascii, by simp⟩
  · obtain ⟨some, high⟩ := Utf8.encodeChar_high (Nat.le_of_not_lt ascii)
    obtain ⟨first, more, same⟩ := List.exists_cons_of_ne_nil some
    exact ⟨first, more, same, fun b member => high b (by simp [same, member])⟩

/-- Bytes in front of others are in front of what these stand in front of. -/
theorem Quoted.behind_behind (ended : Quoted) (value more : Bytes) (length count : Nat) :
    (ended.behind value length).behind more count = ended.behind (more ++ value) (count + length) := by
  cases ended <;> simp [Quoted.behind, Nat.add_assoc]

/-- The character that a backslash and another one stand for has the byte that their bytes stand for. -/
theorem escaped?_of_char {mark c : Char} (found : escapedChar? mark = some c) :
    ∃ b value, String.utf8EncodeChar mark = [b] ∧ b ≠ byte '"' ∧ escaped? b = some value ∧
      String.utf8EncodeChar c = [value] := by
  -- Four characters stand for others behind a backslash, and all of them are single bytes.
  unfold escapedChar? at found
  split at found
  · next mark =>
    cases found
    exact ⟨byte 'n', byte '\n', by rw [mark]; rfl, by decide, rfl, rfl⟩
  · split at found
    · next mark =>
      cases found
      exact ⟨byte 't', byte '\t', by rw [mark]; rfl, by decide, rfl, rfl⟩
    · split at found
      · next mark =>
        cases found
        exact ⟨byte 'r', byte '\r', by rw [mark]; rfl, by decide, rfl, rfl⟩
      · split at found
        · next mark =>
          cases found
          exact ⟨byte '\\', byte '\\', by rw [mark]; rfl, by decide, rfl, rfl⟩
        · cases found

/-- A first byte stands for no other behind a backslash if its character does not. -/
theorem escaped?_of_char_none {c : Char} {first : UInt8} {more : Bytes}
    (bytes : String.utf8EncodeChar c = first :: more) (alone : escapedChar? c = none) :
    escaped? first = none := by
  -- The first byte of another character cannot be that of an escape.
  have apart : ∀ {d : Char}, d.toNat < 128 → escapedChar? d ≠ none → first ≠ byte d := by
    rintro d small some rfl
    have same : c = d := Utf8.eq_of_mem_encodeChar small (by simp [bytes])
    exact some (same ▸ alone)
  unfold escaped?
  rw [if_neg (apart (by decide) (by decide)), if_neg (apart (by decide) (by decide)),
    if_neg (apart (by decide) (by decide)), if_neg (apart (by decide) (by decide))]

section Backslash

variable {raw : Bool} (back : Bytes)

/-- A backslash and a character that it stands for another one with are read as the other one. -/
theorem quoted_escape {mark c : Char} (cooked : raw = false) (found : escapedChar? mark = some c) :
    quoted raw (byte '\\' :: String.utf8EncodeChar mark ++ back) =
      (quoted raw back).behind (String.utf8EncodeChar c)
        (byte '\\' :: String.utf8EncodeChar mark).length := by
  -- The mark is one byte below 128, so the scanner's equation for a pair of bytes applies.
  obtain ⟨b, value, bytes, quote, escaped, char⟩ := escaped?_of_char found
  rw [bytes, char, List.cons_append, List.singleton_append, quoted_pair quote, escaped, cooked]
  rfl

/-- A backslash is kept in front of any other character that is no quote, unless it ends its line. -/
theorem quoted_kept {c : Char} (other : c ≠ '"')
    (kept : raw = true ∨ escapedChar? c = none ∧ c ≠ '\n') :
    quoted raw (byte '\\' :: String.utf8EncodeChar c ++ back) =
      (quoted raw back).behind (byte '\\' :: String.utf8EncodeChar c)
        (byte '\\' :: String.utf8EncodeChar c).length := by
  obtain ⟨first, more, bytes, high⟩ := exists_encodeChar_eq c
  -- The byte behind the backslash is that of the character, which is no quote and no line end.
  have quote : first ≠ byte '"' := fun same =>
    other (Utf8.eq_of_mem_encodeChar (by decide) (by simp [bytes, same]))
  have whole : (quoted raw (more ++ back)).behind [byte '\\', first] 2 =
      (quoted raw back).behind (byte '\\' :: first :: more)
        (byte '\\' :: first :: more).length := by
    rw [quoted_front back (plain_of_high high), Quoted.behind_behind, Nat.add_comm]
    rfl
  rw [bytes, List.cons_append, List.cons_append, quoted_pair quote, ← whole]
  rcases kept with keeps | ⟨alone, line⟩
  · rw [if_pos keeps]
  · have line' : first ≠ byte '\n' := fun same =>
      line (Utf8.eq_of_mem_encodeChar (by decide) (by simp [bytes, same]))
    rw [escaped?_of_char_none bytes alone]
    simp [line']

/-- A backslash does not hide the end of its line outside raw quotes. -/
theorem quoted_backslash_line (cooked : raw = false) :
    quoted raw (byte '\\' :: byte '\n' :: back) = .cut 1 := by
  rw [quoted_pair (by decide), cooked]
  rfl

end Backslash

/-- Behind a backslash that is closed, it and the next character are read, and stand for one character
or for themselves. -/
theorem exists_front_of_backslash {raw : Bool} {rest : List Char} {value : Bytes} {length : Nat}
    (closed : quoted raw (('\\' :: rest).flatMap String.utf8EncodeChar) = .closed value length) :
    ∃ d given more, rest = d :: more ∧ (quoted raw (more.flatMap String.utf8EncodeChar)).behind
        (given.flatMap String.utf8EncodeChar) (['\\', d].flatMap String.utf8EncodeChar).length =
          .closed value length ∧
      ∀ body text, Unescapes raw body text → Unescapes raw (['\\', d] ++ body) (given ++ text) := by
  -- The character behind the backslash decides, and it may have several bytes.
  have own : String.utf8EncodeChar '\\' = [byte '\\'] := rfl
  rw [List.flatMap_cons, own, List.singleton_append] at closed
  cases rest with
  | nil => cases closed
  | cons d more =>
    rw [List.flatMap_cons] at closed
    -- A quote behind a backslash is one, and does not close.
    by_cases hidden : d = '"'
    · subst hidden
      have read := quoted_hidden raw (more.flatMap String.utf8EncodeChar)
      exact ⟨_, ['"'], more, rfl, read.symm.trans closed, fun body text => .quote⟩
    have raw_of_not : ¬raw = true → raw = false := eq_false_of_ne_true
    -- Raw text keeps both characters, as does any text without an escape of that name.
    by_cases keeps : raw = true ∨ escapedChar? d = none ∧ d ≠ '\n'
    · have read := quoted_kept (more.flatMap String.utf8EncodeChar) hidden keeps
      refine ⟨_, ['\\', d], more, rfl, ?_, fun body text => .kept hidden keeps⟩
      simpa [own] using read.symm.trans closed
    · -- The two stand for another character, or the line ends behind the backslash.
      obtain ⟨cooked, other⟩ := not_or.mp keeps
      cases found : escapedChar? d with
      | some c =>
        have read := quoted_escape (more.flatMap String.utf8EncodeChar) (raw_of_not cooked) found
        refine ⟨_, [c], more, rfl, ?_, fun body text => .escape (raw_of_not cooked) found⟩
        simpa [own] using read.symm.trans closed
      | none =>
        obtain rfl : d = '\n' := by simpa [found] using other
        have read := quoted_backslash_line (more.flatMap String.utf8EncodeChar) (raw_of_not cooked)
        cases read.symm.trans closed

/-- What is closed and does not begin with the quote begins with characters that stand for others, and
is closed behind them. -/
theorem exists_front_of_closed {raw : Bool} {c : Char} {rest : List Char} {value : Bytes}
    {length : Nat} (inside : c ≠ '"')
    (closed : quoted raw ((c :: rest).flatMap String.utf8EncodeChar) = .closed value length) :
    ∃ front given more, c :: rest = front ++ more ∧ front ≠ [] ∧
      (quoted raw (more.flatMap String.utf8EncodeChar)).behind
        (given.flatMap String.utf8EncodeChar) (front.flatMap String.utf8EncodeChar).length =
          .closed value length ∧
      ∀ body text, Unescapes raw body text → Unescapes raw (front ++ body) (given ++ text) := by
  -- A backslash takes a character with it, a line end would not be closed, and all else stands for
  -- itself.
  by_cases backslash : c = '\\'
  · subst backslash
    obtain ⟨d, given, more, rfl, behind, extend⟩ := exists_front_of_backslash closed
    exact ⟨_, given, more, rfl, List.cons_ne_nil _ _, behind, extend⟩
  rw [List.flatMap_cons] at closed
  by_cases line : c = '\n'
  · subst line
    cases (quoted_line raw _).symm.trans closed
  · -- A character that means nothing is taken with all of its bytes.
    rw [quoted_front _ (plain_of_char inside backslash line)] at closed
    refine ⟨[c], [c], rest, rfl, List.cons_ne_nil _ _, ?_, fun body text =>
      .plain inside backslash line⟩
    simpa using closed

/-- What is closed is the text up to the quote, and its value is what this text stands for. -/
theorem exists_of_closed_chars {raw : Bool} {chars : List Char} {value : Bytes} {length : Nat}
    (closed : quoted raw (chars.flatMap String.utf8EncodeChar) = .closed value length) :
    ∃ body text after, chars = body ++ '"' :: after ∧ Unescapes raw body text ∧
      value = text.flatMap String.utf8EncodeChar ∧
      length = (body.flatMap String.utf8EncodeChar).length + 1 := by
  -- By strong induction on the number of characters, since a backslash takes two at once.
  induction size : chars.length using Nat.strongRecOn generalizing chars value length with
  | ind count ih =>
    cases chars with
    | nil => cases closed
    | cons c rest =>
      by_cases quote : c = '"'
      · -- The quote ends the text.
        subst quote
        rw [List.flatMap_cons] at closed
        obtain ⟨rfl, rfl⟩ := Quoted.closed.inj ((quoted_close raw _).symm.trans closed)
        exact ⟨[], [], rest, rfl, .none, rfl, rfl⟩
      · -- Behind some characters the text goes on as it does without them.
        obtain ⟨front, given, more, split, some, behind, extend⟩ := exists_front_of_closed quote closed
        obtain ⟨last, tail, ended, rfl, rfl⟩ := Quoted.closed_of_behind behind
        have fewer : more.length < count := by
          have length := List.length_pos_iff.mpr some
          rw [← size, split, List.length_append]
          omega
        obtain ⟨body, text, after, rfl, unescapes, rfl, rfl⟩ := ih _ fewer ended rfl
        exact ⟨front ++ body, given ++ text, after, by rw [split, List.append_assoc],
          extend body text unescapes, by rw [List.flatMap_append], by
            rw [List.flatMap_append, List.length_append, Nat.add_assoc]⟩

end Lexeme

end ArgSchema
