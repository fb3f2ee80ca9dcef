import ArgSchema.Diagnostic.Problem
import ArgSchema.Token

/-! Lexemes: what the bytes at one point of a source are, without regard to where they stand. -/

namespace ArgSchema

/-- The byte of an ASCII character. -/
abbrev byte (character : Char) : UInt8 := character.toUInt8

/-- A blank, tab or line end. -/
def isBlank (b : UInt8) : Bool := b = byte ' ' || b = byte '\t' || b = byte '\n' || b = byte '\r'

/-- A decimal digit. -/
def isDigit (b : UInt8) : Bool := byte '0' ≤ b && b ≤ byte '9'

/-- An ASCII letter. -/
def isLetter (b : UInt8) : Bool :=
  (byte 'a' ≤ b && b ≤ byte 'z') || (byte 'A' ≤ b && b ≤ byte 'Z')

/-- A byte that a name can start with. -/
def isNameStart (b : UInt8) : Bool := isLetter b || b = byte '_'

/-- A byte that a name can go on with. -/
def isNameByte (b : UInt8) : Bool := isLetter b || isDigit b || b = byte '_' || b = byte '-'

/-- What a lexeme is. -/
inductive LexemeContent where
  /-- A token with its text, and a warning if its value was clamped. -/
  | token (kind : TokenKind) (text : String) (warning? : Option Warning)
  /-- A comment, which is skipped. -/
  | comment
  /-- Bytes that are skipped with a report that covers the first `marked` of them. -/
  | malformed (problem : LexicalProblem) (marked : Nat)
  /-- A construct that runs into the end of the input. -/
  | unclosed (problem : LexicalProblem)
  /-- A comment that runs into the end of the input, opened behind `before` bytes. -/
  | unclosedComment (before : Nat)
deriving DecidableEq, Repr

/-- The first byte of some input and as many bytes behind it as belong to it. -/
structure Lexeme where
  /-- What the bytes are. -/
  content : LexemeContent
  /-- Number of bytes behind the first. -/
  tail : Nat
deriving DecidableEq, Repr

namespace Lexeme

/-- Number of bytes, which is never zero. -/
def length (lexeme : Lexeme) : Nat := lexeme.tail + 1

/-- A token of some length without warning. -/
def plain (kind : TokenKind) (text : String) (tail : Nat) : Lexeme :=
  ⟨.token kind text none, tail⟩

/-- A malformed lexeme that is reported whole. -/
def malformed (problem : LexicalProblem) (tail : Nat) : Lexeme :=
  ⟨.malformed problem (tail + 1), tail⟩

/-- A malformed lexeme after which everything up to a blank is skipped unreported. -/
def malformedWord (problem : LexicalProblem) (tail : Nat) (rest : Bytes) : Lexeme :=
  ⟨.malformed problem (tail + 1), tail + (rest.takeWhile (!isBlank ·)).length⟩

/-- A byte that cannot stand behind `tail` others, itself included in the report. -/
def unexpected (tail : Nat) (found : UInt8) (rest : Bytes) : Lexeme :=
  -- The report names the whole character, though it covers its first byte only.
  let parts := Utf8.decodeParts ((found :: rest).take 4)
  malformedWord (.unexpectedCharacter ((parts.head?.getD none).getD '\uFFFD')) tail rest

/-- The kind of token a name in some category is when no property follows it. -/
def nameKind : Category → TokenKind
  | .identifier | .metadata => .identifier
  | .shortlabel => .shortlabel
  | .longlabel => .longlabel
  | .type => .type
  | .property => .property

/-- A name of `tail + 1` bytes, turned into a reference by a dot and a property behind it. -/
def named (category : Category) (text : String) (tail : Nat) (rest : Bytes) : Lexeme :=
  match rest with
  | dot :: after =>
    -- Two dots belong to the next token.
    if dot = byte '.' ∧ after.head? ≠ some (byte '.') then
      if after.head?.any isNameStart then
        let property := after.takeWhile isNameByte
        plain (.reference category (Utf8.decodeLossy property)) text (tail + 1 + property.length)
      else malformedWord .missingProperty (tail + 1) after
    else plain (nameKind category) text tail
  | [] => plain (nameKind category) text tail

/-- The number that a sequence of digits denotes. -/
def digitsValue (digits : Bytes) : Nat :=
  digits.foldl (fun value digit => value * 10 + (digit.toNat - (byte '0').toNat)) 0

/-- An integer, if it is one of 64 bits. -/
def fits? (value : Int) : Option Int :=
  if leastInteger ≤ value ∧ value ≤ greatestInteger then some value else none

/-- The integer of some digits, unless a step on the way to it leaves the integers of 64 bits. -/
def accumulate? (negative : Bool) (digits : Bytes) : Option Int :=
  digits.foldlM (fun value digit => do
    let scaled ← fits? (value * 10)
    let ones : Nat := digit.toNat - (byte '0').toNat
    -- Negative integers are counted down, since the least has no counterpart above zero.
    fits? (if negative then scaled - ones else scaled + ones)) 0

/-- An integer literal, clamped with a warning if it cannot be added up within 64 bits. -/
def integer (negative : Bool) (digits : Bytes) : TokenKind × String × Option Warning :=
  let text := (if negative then "-" else "") ++ Utf8.decodeLossy digits
  match accumulate? negative digits with
  | some value => (.number value, text, none)
  -- Out of range, the nearest number is taken, and the text is kept for the warning.
  | none =>
    if negative then (.number leastInteger, text, some (.integerUnderflow text))
    else (.number greatestInteger, text, some (.integerOverflow text))

/-- A decimal literal, clamped with a warning to the finite numbers. -/
def fraction (negative : Bool) (whole places : Bytes) : TokenKind × String × Option Warning :=
  let text :=
    (if negative then "-" else "") ++ Utf8.decodeLossy whole ++ "." ++ Utf8.decodeLossy places
  -- The digits on both sides of the dot are one number, scaled by those behind it.
  let value := Binary64.ofDecimal negative ⟨digitsValue (whole ++ places), places.length⟩
  if value.isInfinite then
    (.decimal (Binary64.largest negative), text, some (.floatOverflow text))
  else (.decimal value, text, none)

/-- A number that starts behind `before` dashes with a digit. -/
def number (negative : Bool) (before : Nat) (bytes : Bytes) : Lexeme :=
  let whole := bytes.takeWhile isDigit
  let (literal, length) :=
    match bytes.drop whole.length with
    | dot :: after =>
      -- A dot belongs to the number only when a digit follows it.
      if dot = byte '.' ∧ after.head?.any isDigit then
        let places := after.takeWhile isDigit
        (fraction negative whole places, whole.length + 1 + places.length)
      else (integer negative whole, whole.length)
    | [] => (integer negative whole, whole.length)
  ⟨.token literal.1 literal.2.1 literal.2.2, before + length - 1⟩

/-- A name behind two dashes, or a negative number behind three. -/
def doubleDash (rest : Bytes) : Lexeme :=
  match rest with
  | [] => malformed .emptyLonglabel 1
  | b :: after =>
    -- A third dash is the sign of a number.
    if b = byte '-' then
      if after.head?.any isDigit then number true 3 after
      else malformedWord .invalidNumber 2 after
    else if isLetter b || isDigit b || b = byte '_' then
      let name := rest.takeWhile isNameByte
      named .longlabel (Utf8.decodeLossy name) (1 + name.length) (rest.drop name.length)
    -- A blank leaves the label empty; any other byte is an error of its own.
    else if isBlank b then malformed .emptyLonglabel 1
    else unexpected 2 b after

/-- A character behind one dash, or what starts with more dashes. -/
def dash (rest : Bytes) : Lexeme :=
  match rest with
  | [] => malformed .emptyShortlabel 0
  | b :: after =>
    if isBlank b then malformed .emptyShortlabel 0
    else if b = byte '-' then doubleDash after
    else if isLetter b || isDigit b || b = byte '?' then
      -- A short label is one byte, so more bytes of a name are too many.
      let more := after.takeWhile isNameByte
      if more.isEmpty then named .shortlabel (Utf8.decodeLossy [b]) 1 after
      else malformed (.shortlabelTooLong (Utf8.decodeLossy (b :: more))) (1 + more.length)
    else unexpected 1 b after

/-- A name in angle brackets. -/
def angle (rest : Bytes) : Lexeme :=
  -- Neither a closing bracket nor a blank is part of a type's name.
  let name := rest.takeWhile fun b => b ≠ byte '>' && !isBlank b
  let after := rest.drop name.length
  if after.head? = some (byte '>') then
    -- The brackets of an empty type are both passed over.
    if name.isEmpty then malformed .emptyType 1
    else named .type (Utf8.decodeLossy name) (name.length + 1) (after.drop 1)
  else malformed .unterminatedType name.length

/-- Three dots, or a property behind one. -/
def dot (rest : Bytes) : Lexeme :=
  -- Three dots first, as a property would have its name behind the first.
  if rest.take 2 = [byte '.', byte '.'] then plain .ellipsis "..." 2
  else if rest.head?.any isNameStart then
    let name := rest.takeWhile isNameByte
    plain .property (Utf8.decodeLossy name) name.length
  else unexpected 0 (byte '.') rest

/-- How quoted text ends. -/
inductive Quoted where
  /-- By a quote, with the bytes it stands for and the number of bytes up to the quote's end. -/
  | closed (value : Bytes) (length : Nat)
  /-- By a line end behind some bytes. -/
  | cut (before : Nat)
  /-- By the end of the input. -/
  | endless
deriving DecidableEq, Repr

/-- The end of quoted text that has more bytes in front. -/
def Quoted.behind (value : Bytes) (length : Nat) : Quoted → Quoted
  | .closed more rest => .closed (value ++ more) (length + rest)
  | .cut before => .cut (length + before)
  | .endless => .endless

/-- The byte a backslash and another byte stand for in text, if they stand for one. -/
def escaped? (b : UInt8) : Option UInt8 :=
  if b = byte 'n' then some (byte '\n')
  else if b = byte 't' then some (byte '\t')
  else if b = byte 'r' then some (byte '\r')
  else if b = byte '\\' then some (byte '\\')
  else none

/-- The rest of quoted text behind its opening quote; raw text keeps its backslashes. -/
def quoted (raw : Bool) : Bytes → Quoted
  | [] => .endless
  | [b] =>
    if b = byte '\n' then .cut 0 else if b = byte '"' then .closed [] 1 else .endless
  | b :: c :: rest =>
    if b = byte '\n' then .cut 0
    else if b = byte '"' then .closed [] 1
    else if b = byte '\\' then
      if c = byte '"' then (quoted raw rest).behind [byte '"'] 2
      else if raw then (quoted raw rest).behind [b, c] 2
      else match escaped? c with
        | some value => (quoted raw rest).behind [value] 2
        | none =>
          -- A backslash does not hide the end of its line.
          if c = byte '\n' then .cut 1 else (quoted raw rest).behind [b, c] 2
    else (quoted raw (c :: rest)).behind [b] 1

/-- Quoted text whose opening quote is byte number `tail` behind the first. -/
def quotation (kind : TokenKind) (tail : Nat) (rest : Bytes) : Lexeme :=
  match quoted (kind = .regex) rest with
  | .closed value length => plain kind (Utf8.decodeLossy value) (tail + length)
  | .cut before => ⟨.malformed .unterminatedString (tail + 1 + before), tail + before + 1⟩
  | .endless => ⟨.unclosed .unterminatedString, tail + rest.length⟩

/-- A truth value in parentheses. -/
def parenthesis (rest : Bytes) : Lexeme :=
  let word := rest.takeWhile fun b => b ≠ byte ')' && !isBlank b
  let text := Utf8.decodeLossy word
  if (rest.drop word.length).head? = some (byte ')') then
    if text = "true" then plain (.boolean true) text (word.length + 1)
    else if text = "false" then plain (.boolean false) text (word.length + 1)
    else malformed (.invalidBoolean text) (word.length + 1)
  -- What is not closed is left behind the word, to be read on its own.
  else malformed (.invalidBoolean text) word.length

/-- Where the scan of a code snippet stands. -/
inductive SnippetMode where
  /-- In plain code. -/
  | code
  /-- In a comment up to the end of its line. -/
  | lineComment
  /-- In a block comment that was opened behind some bytes of the code. -/
  | blockComment (opened : Nat)
  /-- In text between two quotes of one kind. -/
  | quote (mark : UInt8)
deriving DecidableEq, Repr

/-- How a code snippet ends. -/
inductive SnippetEnd where
  /-- By its closing mark behind some bytes of code. -/
  | closed (length : Nat)
  /-- By the end of the input. -/
  | endless
  /-- By the end of the input in a comment that was opened behind some bytes of the code. -/
  | endlessComment (opened : Nat)
deriving DecidableEq, Repr

/-- The end of a snippet; a closing mark in a comment or between quotes does not count. -/
def snippetEnd : SnippetMode → Nat → Bytes → SnippetEnd
  | .blockComment opened, _, [] => .endlessComment opened
  | _, _, [] => .endless
  | .code, passed, b :: rest =>
    if b = byte '\x7d' ∧ rest.take 2 = [byte '+', byte '+'] then .closed passed
    else if b = byte '/' ∧ rest.head? = some (byte '/') then
      snippetEnd .lineComment (passed + 1) rest
    else match rest with
      | c :: more =>
        if b = byte '/' ∧ c = byte '*' then snippetEnd (.blockComment passed) (passed + 2) more
        else if b = byte '"' ∨ b = byte '\'' then snippetEnd (.quote b) (passed + 1) (c :: more)
        else snippetEnd .code (passed + 1) (c :: more)
      | [] => .endless
  | .lineComment, passed, b :: rest =>
    snippetEnd (if b = byte '\n' then .code else .lineComment) (passed + 1) rest
  | .blockComment opened, passed, b :: rest =>
    match rest with
    | c :: more =>
      if b = byte '*' ∧ c = byte '/' then snippetEnd .code (passed + 2) more
      else snippetEnd (.blockComment opened) (passed + 1) (c :: more)
    | [] => .endlessComment opened
  | .quote mark, passed, b :: rest =>
    if b = byte '\\' then
      match rest with
      | _ :: more => snippetEnd (.quote mark) (passed + 2) more
      | [] => .endless
    -- Quoted text in code ends at the latest with its line.
    else snippetEnd (if b = byte '\n' ∨ b = mark then .code else .quote mark) (passed + 1) rest

/-- A snippet of code, or a plus sign that starts none. -/
def plus (rest : Bytes) : Lexeme :=
  if rest.take 2 = [byte '+', byte '\x7b'] then
    -- The mode tells braces of the code from those in its strings and comments.
    match snippetEnd .code 0 (rest.drop 2) with
    | .closed length =>
      plain .snippet (Utf8.decodeLossy ((rest.drop 2).take length)) (length + 5)
    | .endless => ⟨.unclosed .unterminatedSnippet, rest.length⟩
    -- The place of the comment is counted from the mark in front of the code.
    | .endlessComment opened => ⟨.unclosedComment (opened + 3), rest.length⟩
  else unexpected 0 (byte '+') rest

/-- Number of bytes up to the end of a block comment, if it ends. -/
def commentEnd : Bytes → Option Nat
  | b :: c :: rest =>
    if b = byte '*' ∧ c = byte '/' then some 2 else (commentEnd (c :: rest)).map (· + 1)
  | _ => none

/-- A comment, or a slash that starts none. -/
def slash (rest : Bytes) : Lexeme :=
  -- A comment to the line's end leaves the line end itself.
  if rest.head? = some (byte '/') then ⟨.comment, (rest.takeWhile (· ≠ byte '\n')).length⟩
  else if rest.head? = some (byte '*') then
    match commentEnd (rest.drop 1) with
    | some length => ⟨.comment, length + 1⟩
    | none => ⟨.unclosedComment 0, rest.length⟩
  else unexpected 0 (byte '/') rest

/-- A name behind a sigil. -/
def sigil (kind : TokenKind) (mark : Char) (rest : Bytes) : Lexeme :=
  let name := rest.takeWhile isNameByte
  if name.isEmpty then malformedWord (.missingName mark) 0 rest
  else plain kind (Utf8.decodeLossy name) name.length

/-- A bare word. -/
def word (first : UInt8) (rest : Bytes) : Lexeme :=
  let name := first :: rest.takeWhile isNameByte
  let text := Utf8.decodeLossy name
  let category := if text = "meta" then Category.metadata else .identifier
  named category text (name.length - 1) (rest.drop (name.length - 1))

/-- The kind of a token that is one byte of punctuation. -/
def punctuation? (b : UInt8) : Option TokenKind :=
  if b = byte '\x7b' then some .openCurly
  else if b = byte '\x7d' then some .closeCurly
  else if b = byte '[' then some .openSquare
  else if b = byte ']' then some .closeSquare
  else if b = byte ';' then some .semicolon
  else none

/-- The lexeme that starts with a byte which is not blank. -/
def recognize (first : UInt8) (rest : Bytes) : Lexeme :=
  if first = byte '/' then slash rest
  else if first = byte '-' then dash rest
  else if first = byte '<' then angle rest
  else if first = byte '.' then dot rest
  else if first = byte '"' then quotation .string 0 rest
  -- The letter alone starts a word.
  else if first = byte 'r' ∧ rest.head? = some (byte '"') then quotation .regex 1 (rest.drop 1)
  else if first = byte '(' then parenthesis rest
  else if first = byte '+' then plus rest
  -- A number has its first digit read with the others.
  else if isDigit first then number false 0 (first :: rest)
  else if first = byte '#' then sigil .directive '#' rest
  else if first = byte '@' then sigil .modifier '@' rest
  else match punctuation? first with
    | some kind => plain kind (Utf8.decodeLossy [first]) 0
    | none => if isNameStart first then word first rest else unexpected 0 first rest

end Lexeme

end ArgSchema
