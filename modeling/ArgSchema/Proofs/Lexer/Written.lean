import ArgSchema.Proofs.Lexer.Gaps
import ArgSchema.Proofs.Lexer.Unescaped

/-! Written lexemes: what a lexeme says of its bytes is what the text has there, without damage. -/

namespace ArgSchema

open Utf8 (encode decodeLossy IsText)

/-- The sign of a number in the text of its token. -/
def sign (negative : Bool) : String := if negative then "-" else ""

/-- The dashes in front of the digits of a number. -/
def signDashes (negative : Bool) : String := if negative then "---" else ""

/-- A token of a kind and with a text is written as a slice of a source. -/
inductive Writes : TokenKind → String → String → Prop
  /-- A name is written as its category is. -/
  | name {category text} : Writes (Lexeme.nameKind category) text (category.external text)
  /-- A name, a dot and a property are a reference. -/
  | reference {category text property} :
      Writes (.reference category property) text (category.external text ++ ("." ++ property))
  /-- A string is written between quotes. -/
  | string {body text} : Unescapes false body text →
      Writes .string (String.ofList text) ("\"" ++ (String.ofList body ++ "\""))
  /-- A regular expression is written between raw quotes. -/
  | regex {body text} : Unescapes true body text →
      Writes .regex (String.ofList text) ("r\"" ++ (String.ofList body ++ "\""))
  /-- An integer is written as its digits, behind dashes if it is negative. -/
  | number {value negative digits} :
      Writes (.number value) (sign negative ++ digits) (signDashes negative ++ digits)
  /-- A decimal is written in the same way. -/
  | decimal {value negative digits} :
      Writes (.decimal value) (sign negative ++ digits) (signDashes negative ++ digits)
  /-- A truth value is written in parentheses. -/
  | boolean {value text} : Writes (.boolean value) text ("(" ++ (text ++ ")"))
  /-- Code is written between plus signs and braces. -/
  | snippet {text} : Writes .snippet text ("++\x7b" ++ (text ++ "\x7d++"))
  /-- Punctuation is written as it is. -/
  | mark {kind text} : kind ∈ [.openSquare, .closeSquare, .openCurly, .closeCurly, .semicolon,
      .ellipsis] → Writes kind text text
  /-- A directive is a name behind its sigil. -/
  | directive {text} : Writes .directive text ("#" ++ text)
  /-- A modifier is a name behind its sigil. -/
  | modifier {text} : Writes .modifier text ("@" ++ text)

/-- Characters from 128 on that quotes stand for stand between them. -/
theorem Unescapes.mem {raw : Bool} {body text : List Char} (unescapes : Unescapes raw body text)
    {c : Char} (high : 128 ≤ c.toNat) (member : c ∈ text) : c ∈ body := by
  -- The characters that an escape adds are ASCII, so a high one was written as it stands.
  have apart : ∀ {d : Char}, d.toNat < 128 → c ≠ d := by
    rintro d low rfl
    omega
  induction unescapes with
  | none => cases member
  | plain _ _ _ _ ih =>
    rcases List.mem_cons.mp member with rfl | member
    · exact .head _
    · exact .tail _ (ih member)
  -- An escaped quote is ASCII, which the high character is not.
  | quote _ ih =>
    rcases List.mem_cons.mp member with rfl | member
    · exact absurd rfl (apart (by decide))
    · exact .tail _ (.tail _ (ih member))
  | escape _ found _ ih =>
    rcases List.mem_cons.mp member with rfl | member
    · -- What a backslash and a character stand for is below 128.
      unfold escapedChar? at found
      repeat' split at found
      all_goals cases found
      all_goals exact absurd rfl (apart (by decide))
    · exact .tail _ (.tail _ (ih member))
  -- A backslash that escapes nothing stays, and so does the character behind it.
  | kept _ _ _ ih =>
    simp only [List.mem_cons] at member ⊢
    rcases member with same | same | member
    · exact absurd same (apart (by decide))
    · exact .inr (.inl same)
    · exact .inr (.inr (ih member))

/-- Characters from 128 on in the text of a token are in its slice of the source. -/
theorem Writes.mem_slice {kind : TokenKind} {text slice : String} (writes : Writes kind text slice)
    {c : Char} (high : 128 ≤ c.toNat) (member : c ∈ text.toList) : c ∈ slice.toList := by
  have external : ∀ category : Category, c ∈ (category.external text).toList := by
    intro category
    cases category <;> simp [Category.external, member]
  -- In front of the digits of a number there is nothing but dashes.
  have digits : ∀ negative given, c ∈ (sign negative ++ given).toList → c ∈ given.toList := by
    intro negative given member
    rw [String.toList_append] at member
    refine (List.mem_append.mp member).resolve_left fun first => ?_
    cases negative
    · cases first
    · obtain rfl : c = '-' := by simpa [sign] using first
      simp at high
  -- Everywhere else the text is part of what was written, or of what it was unescaped from.
  cases writes with
  | name => exact external _
  | reference => simp [external]
  | string unescapes | regex unescapes =>
    rw [String.toList_ofList] at member
    simp [unescapes.mem high member]
  | number | decimal => simp [digits _ _ member]
  | boolean | snippet | directive | modifier => simp [member]
  | mark => exact member

/-- The property of a reference is in its slice of the source. -/
theorem Writes.slice_of_reference {category : Category} {property text slice : String}
    (writes : Writes (.reference category property) text slice) :
    slice = category.external text ++ ("." ++ property) := by
  -- Only the form for references has this kind.
  generalize same : TokenKind.reference category property = kind at writes
  cases writes with
  | reference =>
    cases same
    rfl
  | @name other => cases other <;> cases same
  | mark member => simp [← same] at member
  | _ => cases same

/-- A problem with some text quotes nothing but what stands there. -/
def LexicalProblem.Quotes (problem : LexicalProblem) (slice : String) : Prop :=
  match problem with
  | .shortlabelTooLong text => slice = "-" ++ text
  -- The closing parenthesis may be missing.
  | .invalidBoolean text => slice = "(" ++ text ∨ slice = "(" ++ (text ++ ")")
  | .missingName mark => ∃ more, slice = mark.toString ++ more
  -- Dashes in front of the character were taken before it was looked at.
  | .unexpectedCharacter found => ∃ dashes more,
    (dashes = "" ∨ dashes = "-" ∨ dashes = "--") ∧ slice = dashes ++ (found.toString ++ more)
  | _ => True

/-- A warning about a number names the text of the number. -/
def Warning.Clamps (warning : Warning) (text : String) : Prop :=
  warning = .integerOverflow text ∨ warning = .integerUnderflow text ∨ warning = .floatOverflow text

/-- What some content says is written in a slice of a source. -/
inductive LexemeContent.Says : LexemeContent → String → Prop
  /-- A token is written there, and a warning names its text. -/
  | token {kind text warning? slice} : Writes kind text slice →
      (∀ warning ∈ warning?, Warning.Clamps warning text) → Says (.token kind text warning?) slice
  /-- A comment says nothing. -/
  | comment {slice} : Says .comment slice
  /-- A problem quotes what is there, and the report covers bytes of it. -/
  | malformed {problem marked slice} : problem.Quotes slice → marked ≤ (encode slice).length →
      Says (.malformed problem marked) slice
  /-- What is not closed quotes what is there. -/
  | unclosed {problem slice} : problem.Quotes slice → Says (.unclosed problem) slice
  /-- A comment that is not closed was opened there. -/
  | unclosedComment {before slice} : before < (encode slice).length →
      Says (.unclosedComment before) slice

/-- Bytes that are recognized as a lexeme start with a text that the lexeme takes and says. -/
def Lexeme.Says (lexeme : Lexeme) (bytes : Bytes) : Prop :=
  ∃ slice after, bytes = encode slice ++ after ∧ (encode slice).length = lexeme.length ∧
    lexeme.content.Says slice

namespace Lexeme

/-- Bytes from 128 on are no blanks. -/
theorem isBlank_of_high {b : UInt8} (high : 0x80 ≤ b) : (!isBlank b) = true := by
  -- All blanks are below 128.
  have apart : ∀ {c : Char}, byte c < 0x80 → b ≠ byte c := fun small => ne_byte_of_high high small
  simp [isBlank, apart (show byte ' ' < 0x80 by decide), apart (show byte '\t' < 0x80 by decide),
    apart (show byte '\n' < 0x80 by decide), apart (show byte '\r' < 0x80 by decide)]

/-- What is taken of a text up to a byte below 128 is a text, and so is what follows. -/
theorem exists_taken_text {P : UInt8 → Bool} (high : ∀ b, 0x80 ≤ b → P b = true) {bytes : Bytes}
    (whole : IsText bytes) : ∃ text back, bytes = encode text ++ back ∧
      bytes.takeWhile P = encode text ∧ IsText back := by
  -- A prefix that takes every high byte ends between two characters.
  obtain ⟨text, taken⟩ := whole.takeWhile high
  have split := @List.takeWhile_append_dropWhile _ P bytes
  rw [← taken] at split
  rw [← split] at whole
  exact ⟨text, bytes.dropWhile P, split.symm, taken.symm, whole.behind (Utf8.isText_encode text)⟩

/-- Bytes of names are a text. -/
theorem isText_of_name {name : Bytes} (all : ∀ b ∈ name, isNameByte b = true) : IsText name :=
  .of_small fun b member => small_of_isNameByte (all b member)

/-- What is taken of some bytes as a name is a text. -/
theorem exists_taken_name (bytes : Bytes) : ∃ name back, bytes = encode name ++ back ∧
    bytes.takeWhile isNameByte = encode name := by
  -- Bytes of names are ASCII, so what they spell needs no argument about characters.
  obtain ⟨name, taken⟩ := isText_of_name fun b (member : b ∈ bytes.takeWhile isNameByte) =>
    List.all_eq_true.mp List.all_takeWhile b member
  refine ⟨name, bytes.dropWhile isNameByte, ?_, taken.symm⟩
  rw [taken, List.takeWhile_append_dropWhile]

/-- A text behind a mark of one byte is a text that begins with the mark. -/
theorem encode_behind {mark text : String} {first : UInt8} (one : encode mark = [first])
    (back : Bytes) : first :: (encode text ++ back) = encode (mark ++ text) ++ back ∧
      (encode (mark ++ text)).length = (encode text).length + 1 := by
  rw [Utf8.encode_append, one]
  exact ⟨by rw [List.append_assoc]; rfl, by rw [List.length_append, Nat.add_comm]; rfl⟩

section Shapes

variable {bytes after rest : Bytes} {tail : Nat} {problem : LexicalProblem}

/-- A token without warning is written as its slice. -/
theorem says_plain {kind : TokenKind} {text slice : String} (writes : Writes kind text slice)
    (found : bytes = encode slice ++ after) (size : (encode slice).length = tail + 1) :
    (plain kind text tail).Says bytes :=
  ⟨slice, after, found, size, .token writes (by simp)⟩

/-- What is malformed quotes its slice. -/
theorem says_malformed {slice : String} (quotes : problem.Quotes slice)
    (found : bytes = encode slice ++ after) (size : (encode slice).length = tail + 1) :
    (malformed problem tail).Says bytes :=
  ⟨slice, after, found, size, .malformed quotes (Nat.le_of_eq size.symm)⟩

/-- A malformed word goes up to the next blank, and quotes something of it. -/
theorem says_malformedWord {front : String} (quotes : ∀ more, problem.Quotes (front ++ more))
    (found : bytes = encode front ++ rest) (size : (encode front).length = tail + 1)
    (text : IsText rest) : (malformedWord problem tail rest).Says bytes := by
  -- The word goes up to the next blank, which cuts no character.
  obtain ⟨more, back, rfl, taken, -⟩ := exists_taken_text (fun _ => isBlank_of_high) text
  refine ⟨front ++ more, back, ?_, ?_, .malformed (quotes more) ?_⟩
  · rw [found, Utf8.encode_append, List.append_assoc]
  · rw [Utf8.encode_append, List.length_append, size]
    simp only [Lexeme.length, malformedWord, taken]
    omega
  · rw [Utf8.encode_append, List.length_append, size]
    exact Nat.le_add_right _ _

/-- Four bytes are enough to read the character that some bytes start with. -/
theorem head?_decodeParts_take (c : Char) (rest : Bytes) :
    (Utf8.decodeParts ((String.utf8EncodeChar c ++ rest).take 4)).head? = some (some c) := by
  -- No character has more than four bytes.
  have short : (String.utf8EncodeChar c).length ≤ 4 := by
    rw [String.length_utf8EncodeChar]
    exact c.utf8Size_le_four
  rw [List.take_append, List.take_of_length_le short]
  obtain ⟨first, more, bytes, read⟩ :=
    Utf8.readChar_encodeChar c (rest.take (4 - (String.utf8EncodeChar c).length))
  rw [bytes, List.length_cons] at read ⊢
  rw [List.cons_append, Utf8.decodeParts, read]
  rfl

/-- A character that cannot stand where it does is the one in the source, whole. -/
theorem says_unexpected {dashes : String} {found : UInt8}
    (front : dashes = "" ∨ dashes = "-" ∨ dashes = "--")
    (same : bytes = encode dashes ++ found :: rest) (size : (encode dashes).length = tail)
    (text : IsText (found :: rest)) : (unexpected tail found rest).Says bytes := by
  -- The byte is the first of a character, and the others of the character are not blank.
  obtain ⟨c, more, own⟩ : ∃ c more, found :: rest = String.utf8EncodeChar c ++ encode more := by
    obtain ⟨text, own⟩ := text
    cases list : text.toList with
    | nil => rw [encode, list] at own; cases own
    | cons c more =>
      exact ⟨c, String.ofList more, by rw [← own, encode, list, Utf8.encode_ofList]; rfl⟩
  obtain ⟨first, others, char, high⟩ := exists_encodeChar_eq c
  have character : unexpected tail found rest =
      malformedWord (.unexpectedCharacter c) tail rest := by
    rw [unexpected, own, head?_decodeParts_take]
    rfl
  have single : encode c.toString = String.utf8EncodeChar c := by simp [encode, Char.toString]
  -- The word is taken as far as the next blank, which is never inside a character.
  obtain ⟨word, back, split, word', -⟩ :=
    exists_taken_text (fun _ => isBlank_of_high) (Utf8.isText_encode more)
  have taken : rest.takeWhile (!isBlank ·) = others ++ encode word := by
    rw [char, List.cons_append] at own
    rw [(List.cons.inj own).2, ← word']
    exact List.takeWhile_append_of_pos fun b member => isBlank_of_high (high b member)
  -- The slice is the dashes, the character and the word behind it.
  refine ⟨dashes ++ (c.toString ++ word), back, ?_, ?_, ?_⟩
  · rw [same, own, split]
    simp only [Utf8.encode_append, single, List.append_assoc]
  · simp only [Utf8.encode_append, single, character, char, Lexeme.length, malformedWord, taken,
      List.length_append, List.length_cons, size]
    omega
  · rw [character]
    refine .malformed ⟨dashes, word, front, rfl⟩ ?_
    simp only [Utf8.encode_append, single, char, List.length_append, List.length_cons, size]
    omega

end Shapes

section Readers

variable {bytes rest : Bytes} {tail : Nat}

/-- Digits are a text. -/
theorem isText_of_digits {digits : Bytes} (all : ∀ b ∈ digits, isDigit b = true) : IsText digits :=
  isText_of_name fun b member => isNameByte_of_isDigit (all b member)

/-- A name is written as its category is, and behind it a dot and the property of a reference. -/
theorem says_named (category : Category) {text : String}
    (found : bytes = encode (category.external text) ++ rest)
    (size : (encode (category.external text)).length = tail + 1) (whole : IsText rest) :
    (named category text tail rest).Says bytes := by
  -- Only a dot directly behind the name can make it more than a label.
  have alone : (plain (nameKind category) text tail).Says bytes := says_plain .name found size
  cases rest with
  | nil => exact alone
  | cons dot after =>
    rw [named]
    split
    · next joined =>
      obtain ⟨rfl, -⟩ := joined
      have dot : encode "." = [byte '.'] := rfl
      split
      · -- The property goes as far as the bytes of names.
        obtain ⟨property, back, rfl, taken⟩ := exists_taken_name after
        simp only [taken, Utf8.decodeLossy_encode]
        refine @says_plain _ back _ _ _ (category.external text ++ ("." ++ property)) .reference ?_ ?_
        · rw [found, Utf8.encode_append, Utf8.encode_append, dot]
          simp
        · simp only [Utf8.encode_append, dot, List.length_append, size, List.length_singleton]
          omega
      -- A dot without a property behind it quotes the word as far as the dot.
      · refine @says_malformedWord _ _ _ _ (category.external text ++ ".") (fun _ => trivial) ?_ ?_
          (whole.tail (by decide))
        · rw [found, Utf8.encode_append, dot, List.append_assoc]
          rfl
        · rw [Utf8.encode_append, dot, List.length_append, size]
          rfl
    · exact alone

/-- An integer names its digits, and so does a warning about it. -/
theorem exists_integer_eq (negative : Bool) (digits : Bytes) : ∃ value warning?,
    integer negative digits = (.number value, sign negative ++ decodeLossy digits, warning?) ∧
      ∀ warning ∈ warning?, Warning.Clamps warning (sign negative ++ decodeLossy digits) := by
  refine ⟨_, _, integer_eq negative digits, fun warning member => ?_⟩
  -- The warning is the one for the side on which the value is out of range.
  unfold outOfRange? at member
  split at member
  · exact .inr (.inl (Option.some.inj member).symm)
  · split at member
    · exact .inl (Option.some.inj member).symm
    · cases member

/-- A decimal names its digits and its dot, and so does a warning about it. -/
theorem exists_fraction_eq (negative : Bool) (whole places : Bytes) : ∃ value warning?,
    fraction negative whole places =
        (.decimal value, sign negative ++ (decodeLossy whole ++ ("." ++ decodeLossy places)), warning?) ∧
      ∀ warning ∈ warning?, Warning.Clamps warning
        (sign negative ++ (decodeLossy whole ++ ("." ++ decodeLossy places))) := by
  have text : sign negative ++ (decodeLossy whole ++ ("." ++ decodeLossy places)) =
      (if negative then "-" else "") ++ decodeLossy whole ++ "." ++ decodeLossy places := by
    simp only [sign, String.append_assoc]
  unfold fraction
  rw [text]
  simp only
  -- Only an infinite value is clamped.
  split
  · exact ⟨_, _, rfl, fun warning member => .inr (.inr (Option.some.inj member).symm)⟩
  · exact ⟨_, _, rfl, by simp⟩

/-- A number is written as its digits, behind dashes if it is negative. -/
theorem says_number (negative : Bool) {before : Nat}
    (found : bytes = encode (signDashes negative) ++ rest)
    (size : (encode (signDashes negative)).length = before)
    (start : rest.head?.any isDigit = true) : (number negative before rest).Says bytes := by
  -- The digits go as far as they can, and then a dot decides which number it is.
  obtain ⟨whole, back, rfl, digits, stop⟩ := exists_taken isDigit rest
  have some := List.length_pos_iff.mpr (digits_ne_nil stop start)
  have text := isText_of_digits digits
  by_cases joined : ∃ after, back = byte '.' :: after ∧ after.head?.any isDigit = true
  · -- A dot and digits follow the digits.
    obtain ⟨after, rfl, digit⟩ := joined
    obtain ⟨places, after, rfl, digits', stop'⟩ := exists_taken isDigit after
    have text' := isText_of_digits digits'
    have dot : encode "." = [byte '.'] := rfl
    have all : ∀ b ∈ whole ++ places, isDigit b = true := fun b member =>
      (List.mem_append.mp member).elim (digits b) (digits' b)
    obtain ⟨value, warning?, same, clamps⟩ := exists_fraction_eq negative whole places
    -- The slice is the sign, the digits, the dot and the digits behind it.
    rw [number_places negative before all (digits_ne_nil stop' digit) stop', literal, same]
    refine ⟨signDashes negative ++ (decodeLossy whole ++ ("." ++ decodeLossy places)), after, ?_, ?_,
      .token .decimal clamps⟩
    · simp [found, Utf8.encode_append, text.encode_decodeLossy, text'.encode_decodeLossy, dot]
    · simp only [Utf8.encode_append, text.encode_decodeLossy, text'.encode_decodeLossy, dot,
        List.length_append, size, List.length_singleton, Lexeme.length]
      omega
  -- Without digits behind a dot, the digits alone are an integer.
  · have alone : ∀ after, back = byte '.' :: after → after.head?.any isDigit = false :=
      fun after same => Bool.eq_false_iff.mpr fun digit => joined ⟨after, same, digit⟩
    obtain ⟨value, warning?, same, clamps⟩ := exists_integer_eq negative whole
    rw [number_whole negative before digits stop alone, literal, same]
    refine ⟨signDashes negative ++ decodeLossy whole, back, ?_, ?_, .token .number clamps⟩
    · rw [found, Utf8.encode_append, text.encode_decodeLossy, List.append_assoc]
    · simp only [Utf8.encode_append, text.encode_decodeLossy, List.length_append, size,
        Lexeme.length]
      omega

/-- What stands behind two dashes is written behind them. -/
theorem says_doubleDash (whole : IsText rest) :
    (doubleDash rest).Says (byte '-' :: byte '-' :: rest) := by
  have dashes : encode "--" = [byte '-', byte '-'] := rfl
  cases rest with
  | nil => exact @says_malformed _ [] _ _ "--" trivial rfl rfl
  | cons b after =>
    rw [doubleDash]
    split
    · next third =>
      subst third
      -- Three dashes stand in front of the digits of a negative number.
      split
      · next digit => exact says_number true rfl rfl digit
      · exact @says_malformedWord _ _ _ _ "---" (fun _ => trivial) rfl rfl (whole.tail (by decide))
    -- A long label takes all bytes of its name, the first one among them.
    · split
      · obtain ⟨name, back, split, taken⟩ := exists_taken_name (b :: after)
        rw [split] at whole taken ⊢
        simp only [taken, List.drop_left, Utf8.decodeLossy_encode]
        refine says_named .longlabel ?_ ?_ (whole.behind (Utf8.isText_encode name))
        · simp [Category.external, Utf8.encode_append, dashes]
        · simp [Category.external, Utf8.encode_append, dashes]
          omega
      · split
        · exact @says_malformed _ (b :: after) _ _ "--" trivial rfl rfl
        · exact says_unexpected (.inr (.inr rfl)) rfl rfl whole

/-- What stands behind a dash is written behind it. -/
theorem says_dash (whole : IsText rest) : (dash rest).Says (byte '-' :: rest) := by
  -- The byte behind the dash tells labels, numbers and stray dashes apart.
  have one : encode "-" = [byte '-'] := rfl
  cases rest with
  | nil => exact @says_malformed _ [] _ _ "-" trivial rfl rfl
  | cons b after =>
    rw [dash]
    split
    · exact @says_malformed _ (b :: after) _ _ "-" trivial rfl rfl
    · split
      · next dashed =>
        subst dashed
        exact says_doubleDash (whole.tail (by decide))
      · split
        -- A label's first letter is ASCII, so the rest is text again.
        · next start =>
          have small : b < 0x80 := small_of_isShortlabel (by simpa [isShortlabel] using start)
          have behind := whole.tail small
          obtain ⟨label, bytes⟩ := @IsText.of_small [b] (by simpa using small)
          obtain ⟨more, back, rfl, taken⟩ := exists_taken_name after
          simp only [taken]
          split
          · rw [← bytes, Utf8.decodeLossy_encode]
            refine says_named .shortlabel ?_ ?_ behind
            · simp [Category.external, Utf8.encode_append, bytes, one]
            · simp [Category.external, Utf8.encode_append, bytes, one]
          · -- A label that is too long is quoted without its dash.
            have whole : b :: encode more = encode (label ++ more) := by
              rw [Utf8.encode_append, bytes]
              rfl
            rw [whole, Utf8.decodeLossy_encode]
            refine @says_malformed _ back _ _ ("-" ++ (label ++ more)) rfl ?_ ?_
            · simp [Utf8.encode_append, bytes, one]
            · simp [Utf8.encode_append, bytes, one, Nat.add_comm]
        · exact says_unexpected (.inr (.inl rfl)) rfl rfl whole

/-- A type is written between its brackets. -/
theorem says_angle (whole : IsText rest) : (angle rest).Says (byte '<' :: rest) := by
  have opened : encode "<" = [byte '<'] := rfl
  have closed : encode ">" = [byte '>'] := rfl
  obtain ⟨name, back, rfl, taken, behind⟩ :=
    exists_taken_text (P := fun b => b ≠ byte '>' && !isBlank b) (fun b high => by
      simp [isBlank_of_high high, ne_byte_of_high high (show byte '>' < 0x80 by decide)]) whole
  unfold angle
  -- The bracket is there or not, and the name may be empty.
  simp only [taken, List.drop_left, Utf8.decodeLossy_encode]
  split
  -- A type that is closed is named, and may go on as a reference.
  · next ended =>
    obtain ⟨after, rfl⟩ := List.head?_eq_some_iff.mp ended
    split
    · next empty =>
      rw [List.isEmpty_iff.mp empty]
      exact @says_malformed _ after _ _ "<>" trivial rfl rfl
    · refine says_named .type ?_ ?_ (behind.tail (by decide))
      · simp [Category.external, Utf8.encode_append, opened, closed]
      · simp [Category.external, Utf8.encode_append, opened, closed, Nat.add_comm]
  · obtain ⟨found, size⟩ := encode_behind opened back
    exact says_malformed trivial found size

/-- Three dots are written as they are, and a property behind its dot. -/
theorem says_dot (whole : IsText (byte '.' :: rest)) : (dot rest).Says (byte '.' :: rest) := by
  have one : encode "." = [byte '.'] := rfl
  have three : encode "..." = [byte '.', byte '.', byte '.'] := rfl
  unfold dot
  -- Three dots, a property, or a dot alone.
  split
  · next dots =>
    have split := List.take_append_drop 2 rest
    rw [dots] at split
    refine @says_plain _ (rest.drop 2) _ _ _ "..." (.mark (by simp)) ?_ rfl
    rw [← split, three]
    rfl
  · split
    · obtain ⟨name, back, rfl, taken⟩ := exists_taken_name rest
      simp only [taken, Utf8.decodeLossy_encode]
      obtain ⟨found, size⟩ := encode_behind one back
      exact says_plain (@Writes.name .property name) found size
    · exact says_unexpected (.inl rfl) rfl rfl whole

/-- What stands between quotes is what the text of the token stands for. -/
theorem says_quotation {kind : TokenKind} {front : String}
    (writes : ∀ body text, Unescapes (kind = .regex) body text →
      Writes kind (String.ofList text) (front ++ (String.ofList body ++ "\"")))
    (found : bytes = encode front ++ rest) (size : (encode front).length = tail + 1)
    (whole : IsText rest) : (quotation kind tail rest).Says bytes := by
  have mark : encode "\"" = [byte '"'] := rfl
  have line : encode "\n" = [byte '\n'] := rfl
  unfold quotation
  -- The quotes are closed, cut off by a line end, or never closed.
  cases ended : quoted (kind = .regex) rest with
  -- What is between the quotes is text, as a closing quote is never inside a character.
  | closed value length =>
    obtain ⟨text, rfl⟩ := whole
    obtain ⟨body, given, after, split, unescapes, rfl, rfl⟩ := exists_of_closed_chars ended
    dsimp only
    rw [← Utf8.encode_ofList, Utf8.decodeLossy_encode]
    refine @says_plain _ (encode (String.ofList after)) _ _ _ _ (writes body given unescapes) ?_ ?_
    · have behind : encode text = encode (String.ofList body) ++ byte '"' ::
          encode (String.ofList after) := by
        rw [encode, split, Utf8.encode_ofList, Utf8.encode_ofList, List.flatMap_append]
        rfl
      rw [found, behind]
      simp [Utf8.encode_append, mark]
    · rw [Utf8.encode_append, Utf8.encode_append, List.length_append, List.length_append, size,
        Utf8.encode_ofList, mark, List.length_singleton]
      omega
  -- The line end belongs to the slice.
  | cut before =>
    obtain ⟨body, last, after, rfl, ends, -⟩ := exists_of_ended (by rw [ended]; simp)
    rw [ended] at ends
    obtain ⟨rfl, rfl⟩ := ends
    obtain ⟨text, rfl⟩ := (whole.cut (by rintro b ⟨⟩; decide)).1
    have length : (encode (front ++ (text ++ "\n"))).length =
        tail + 1 + ((encode text).length + 1) := by
      simp only [Utf8.encode_append, List.length_append, size, line, List.length_singleton]
    refine ⟨front ++ (text ++ "\n"), after, ?_, ?_, .malformed trivial ?_⟩
    · simp [found, Utf8.encode_append, line]
    · simp only [length, Lexeme.length]
      omega
    · rw [length]
      omega
  -- Everything that is left belongs to the slice.
  | endless =>
    obtain ⟨text, rfl⟩ := whole
    refine ⟨front ++ text, [], ?_, ?_, .unclosed trivial⟩
    · rw [found, Utf8.encode_append, List.append_nil]
    · rw [Utf8.encode_append, List.length_append, size]
      simp only [Lexeme.length]
      omega

/-- A truth value, or what is none, is written in parentheses. -/
theorem says_parenthesis (whole : IsText rest) : (parenthesis rest).Says (byte '(' :: rest) := by
  have opened : encode "(" = [byte '('] := rfl
  have closed : encode ")" = [byte ')'] := rfl
  obtain ⟨name, back, rfl, taken, behind⟩ :=
    exists_taken_text (P := fun b => b ≠ byte ')' && !isBlank b) (fun b high => by
      simp [isBlank_of_high high, ne_byte_of_high high (show byte ')' < 0x80 by decide)]) whole
  unfold parenthesis
  simp only [taken, List.drop_left, Utf8.decodeLossy_encode]
  -- Closed parentheses hold one of two words or something else.
  split
  · next ended =>
    obtain ⟨after, rfl⟩ := List.head?_eq_some_iff.mp ended
    have found : byte '(' :: (encode name ++ byte ')' :: after) =
        encode ("(" ++ (name ++ ")")) ++ after := by
      simp [Utf8.encode_append, opened, closed]
    have size : (encode ("(" ++ (name ++ ")"))).length = (encode name).length + 1 + 1 := by
      simp [Utf8.encode_append, opened, closed, Nat.add_comm]
    split
    · exact says_plain .boolean found size
    · split
      · exact says_plain .boolean found size
      · exact says_malformed (.inr rfl) found size
  -- Without the parenthesis the word is quoted as far as it goes.
  · obtain ⟨found, size⟩ := encode_behind opened back
    exact says_malformed (.inl rfl) found size

/-- What takes all bytes takes a text, and says what it says of all of them. -/
theorem says_all {content : LexemeContent} {first : UInt8} (whole : IsText (first :: rest))
    (fits : ∀ slice, (encode slice).length = rest.length + 1 → content.Says slice) :
    Says ⟨content, rest.length⟩ (first :: rest) := by
  -- The slice is all that is left.
  obtain ⟨text, same⟩ := whole
  have length : (encode text).length = rest.length + 1 := by
    rw [same]
    rfl
  exact ⟨text, [], by rw [same, List.append_nil], length, fits text length⟩

/-- A comment in a snippet that is not closed was opened in front of the end. -/
theorem opened_lt_of_endlessComment {mode : SnippetMode} {passed opened : Nat} {bytes : Bytes}
    (before : ∀ outer, mode = .blockComment outer → outer < passed + bytes.length)
    (ended : snippetEnd mode passed bytes = .endlessComment opened) :
    opened < passed + bytes.length := by
  -- What was passed is counted with what follows, wherever the scan stands.
  have behind : ∀ {count : Nat} {next : SnippetMode} {front back : Bytes},
      ((∀ outer, next = .blockComment outer → outer < count + front.length + back.length) →
        opened < count + front.length + back.length) →
      (∀ outer, next = .blockComment outer → outer < count + (front ++ back).length) →
      opened < count + (front ++ back).length := by
    intro count next front back ih before
    rw [List.length_append, ← Nat.add_assoc]
    exact ih fun outer same => by simpa [Nat.add_assoc] using before outer same
  -- The cases are the scanner's steps; only the end of the text can leave a comment open.
  fun_induction snippetEnd mode passed bytes with
  | case1 | case12 =>
    cases ended
    exact before _ rfl
  -- The scan ends otherwise.
  | case2 | case3 | case8 | case14 => cases ended
  | case4 passed b rest _ _ ih => exact @behind passed _ [b] rest (ih · ended) (by simp)
  | case5 passed b c rest _ _ _ ih =>
    refine @behind passed _ [b, c] rest (ih · ended) ?_
    rintro outer ⟨⟩
    simp
  | case6 passed b c rest _ _ _ _ ih => exact @behind passed _ [b] (c :: rest) (ih · ended) (by simp)
  | case7 passed b c rest _ _ _ _ ih => exact @behind passed _ [b] (c :: rest) (ih · ended) (by simp)
  | case9 passed b rest ih => exact @behind passed _ [b] rest (ih · ended) (by split <;> simp)
  | case10 outer passed b c rest _ ih => exact @behind passed _ [b, c] rest (ih · ended) (by simp)
  | case11 outer passed b c rest _ ih => exact @behind passed _ [b] (c :: rest) (ih · ended) before
  | case13 mark passed c rest ih => exact @behind passed _ [_, c] rest (ih · ended) (by simp)
  | case15 mark passed b rest _ ih => exact @behind passed _ [b] rest (ih · ended) (by split <;> simp)

/-- Code is written between its marks. -/
theorem says_plus (whole : IsText (byte '+' :: rest)) : (plus rest).Says (byte '+' :: rest) := by
  have opened : encode "++\x7b" = [byte '+', byte '+', byte '\x7b'] := rfl
  have closed : encode "\x7d++" = closing := rfl
  unfold plus
  -- Without both marks the plus sign starts nothing.
  split
  · next marks =>
    have split := List.take_append_drop 2 rest
    rw [marks] at split
    split
    -- The code stands between the marks, and neither mark is inside a character.
    · next length ended =>
      obtain ⟨code, after, found, rfl⟩ := exists_code_of_closed ended
      rw [Nat.zero_add]
      have inside := whole
      rw [← split, found] at inside
      obtain ⟨text, rfl⟩ := ((@IsText.behind (encode "++\x7b") _ inside
        (Utf8.isText_encode _)).cut (by rintro b ⟨⟩; decide)).1
      rw [found, List.take_left, Utf8.decodeLossy_encode, ← split, found]
      refine @says_plain _ after _ _ _ ("++\x7b" ++ (text ++ "\x7d++")) .snippet ?_ ?_
      · simp [Utf8.encode_append, opened, closed]
      · simp [Utf8.encode_append, opened, closed, closing]
    · exact says_all whole fun _ _ => .unclosed trivial
    -- The comment was opened in front of the end, so its place is in the slice.
    · next opened' ended =>
      refine says_all whole fun _ length => .unclosedComment ?_
      have inside := @opened_lt_of_endlessComment .code _ _ _ (by simp) ended
      have marks' := congrArg List.length marks
      rw [length]
      simp at inside marks'
      omega
  · exact says_unexpected (.inl rfl) rfl rfl whole

/-- A comment goes up to the end of a character. -/
theorem says_slash (whole : IsText (byte '/' :: rest)) : (slash rest).Says (byte '/' :: rest) := by
  have one : encode "/" = [byte '/'] := rfl
  have opened : encode "/*" = [byte '/', byte '*'] := rfl
  have closed : encode "*/" = [byte '*', byte '/'] := rfl
  have behind := whole.tail (by decide)
  unfold slash
  -- A line comment, a block comment, or a slash alone.
  split
  · obtain ⟨line, back, rfl, taken, -⟩ := exists_taken_text (P := (· ≠ byte '\n'))
      (fun b high => by simp [ne_byte_of_high high (show byte '\n' < 0x80 by decide)]) behind
    rw [taken]
    obtain ⟨found, size⟩ := encode_behind one back
    -- The line is all that stands in front of the line end.
    exact ⟨"/" ++ line, back, found, size, .comment⟩
  · split
    · next star =>
      obtain ⟨after, rfl⟩ := List.head?_eq_some_iff.mp star
      rw [List.drop_succ_cons, List.drop_zero]
      split
      · next length ended =>
        -- The comment's end is ASCII, so the text in front of it has all its characters.
        obtain ⟨text, more, rfl, rfl, -⟩ := exists_text_of_commentEnd ended
        obtain ⟨text, rfl⟩ := ((behind.tail (by decide)).cut (by rintro b ⟨⟩; decide)).1
        refine ⟨"/*" ++ (text ++ "*/"), more, ?_, ?_, .comment⟩
        · simp [Utf8.encode_append, opened, closed]
        · simp [Utf8.encode_append, opened, closed, Lexeme.length]
      · exact says_all whole fun _ length => .unclosedComment (by omega)
    · exact says_unexpected (.inl rfl) rfl rfl whole

/-- A name is written behind its sigil. -/
theorem says_sigil {kind : TokenKind} {mark : Char} (ascii : mark.toNat < 128)
    (writes : ∀ text, Writes kind text (mark.toString ++ text)) (whole : IsText rest) :
    (sigil kind mark rest).Says (byte mark :: rest) := by
  have one : encode mark.toString = [byte mark] := by
    rw [Char.toString, encode, String.toList_singleton, List.flatMap_singleton]
    exact Utf8.encodeChar_ascii ascii
  obtain ⟨name, back, rfl, taken⟩ := exists_taken_name rest
  unfold sigil
  simp only [taken, Utf8.decodeLossy_encode]
  -- A sigil without a name quotes itself.
  split
  · refine says_malformedWord (fun more => ⟨more, rfl⟩) ?_ ?_ whole
    · rw [one]
      rfl
    · rw [one]
      rfl
  · obtain ⟨found, size⟩ := encode_behind one back
    exact says_plain (writes name) found size

/-- A bare word is written as it is. -/
theorem says_word {first : UInt8} (start : isNameStart first = true)
    (whole : IsText (first :: rest)) : (word first rest).Says (first :: rest) := by
  obtain ⟨name, back, split, taken⟩ := exists_taken_name (first :: rest)
  have named : first :: rest.takeWhile isNameByte = encode name := by
    rw [← taken, List.takeWhile_cons_of_pos (isNameByte_of_isNameStart start)]
  -- The first byte is taken before the rest is looked at, so one byte fewer is dropped.
  have dropped : rest.drop ((encode name).length - 1) = back := by
    have some : 0 < (encode name).length := by
      rw [← named]
      exact Nat.succ_pos _
    have given := congrArg (List.drop (encode name).length) split
    rw [List.drop_left] at given
    rwa [← Nat.sub_add_cancel some, List.drop_succ_cons] at given
  have bare : (if name = "meta" then Category.metadata else .identifier).external name = name := by
    split <;> rfl
  unfold word
  simp only [named, Utf8.decodeLossy_encode, dropped]
  rw [split] at whole
  refine says_named _ ?_ ?_ (whole.behind (Utf8.isText_encode name))
  · rw [bare, split]
  · rw [bare, ← named]
    rfl

/-- Punctuation is a mark that is written as it is. -/
theorem mark_of_punctuation {b : UInt8} {kind : TokenKind} (found : punctuation? b = some kind) :
    b < 0x80 ∧ kind ∈ [.openSquare, .closeSquare, .openCurly, .closeCurly, .semicolon,
      TokenKind.ellipsis] := by
  unfold punctuation? at found
  -- Each of the marks has one byte.
  repeat' split at found
  all_goals cases found
  all_goals next same => exact ⟨same ▸ by decide, by simp⟩

/-- Of two lexemes one is chosen. -/
theorem says_ite {test : Prop} [Decidable test] {yes no : Lexeme} (first : test → yes.Says bytes)
    (second : ¬test → no.Says bytes) : (if test then yes else no).Says bytes := by
  split
  · exact first ‹_›
  · exact second ‹_›

/-- Every lexeme of a text takes a text and says what it is. -/
theorem says_recognize {first : UInt8} (whole : IsText (first :: rest)) :
    (recognize first rest).Says (first :: rest) := by
  -- The bytes that start something longer are asked for in the recognizer's order.
  unfold recognize
  refine says_ite (by rintro rfl; exact says_slash whole) fun _ => ?_
  refine says_ite (by rintro rfl; exact says_dash (whole.tail (by decide))) fun _ => ?_
  refine says_ite (by rintro rfl; exact says_angle (whole.tail (by decide))) fun _ => ?_
  refine says_ite (by rintro rfl; exact says_dot whole) fun _ => ?_
  refine says_ite (by
    rintro rfl
    exact @says_quotation _ _ 0 .string "\"" (fun _ _ => .string) rfl rfl (whole.tail (by decide)))
    fun _ => ?_
  refine says_ite (by
    rintro ⟨rfl, quote⟩
    obtain ⟨after, rfl⟩ := List.head?_eq_some_iff.mp quote
    exact @says_quotation _ _ 1 .regex "r\"" (fun _ _ => .regex) rfl rfl
      ((whole.tail (by decide)).tail (by decide))) fun _ => ?_
  refine says_ite (by rintro rfl; exact says_parenthesis (whole.tail (by decide))) fun _ => ?_
  refine says_ite (by rintro rfl; exact says_plus whole) fun _ => ?_
  refine says_ite (fun digit => says_number false rfl rfl digit) fun _ => ?_
  refine says_ite (by
    rintro rfl
    exact says_sigil (by decide) (fun _ => .directive) (whole.tail (by decide))) fun _ => ?_
  refine says_ite (by
    rintro rfl
    exact says_sigil (by decide) (fun _ => .modifier) (whole.tail (by decide))) fun _ => ?_
  -- Nothing longer starts here: a mark, a word, or a byte that fits nothing.
  cases mark : punctuation? first with
  | some kind =>
    obtain ⟨low, member⟩ := mark_of_punctuation mark
    obtain ⟨text, same⟩ := @IsText.of_small [first] (by simpa using low)
    rw [← same, Utf8.decodeLossy_encode]
    exact @says_plain _ rest _ _ _ text (.mark member) (by rw [same]; rfl) (by rw [same]; rfl)
  | none =>
    exact says_ite (fun start => says_word start whole) fun _ =>
      says_unexpected (.inl rfl) rfl rfl whole

end Readers

end Lexeme

end ArgSchema
