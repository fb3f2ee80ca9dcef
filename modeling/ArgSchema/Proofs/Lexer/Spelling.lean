import ArgSchema.Proofs.Lexer.Integers
import ArgSchema.Proofs.Lexer.Quoted
import ArgSchema.Proofs.Lexer.Snippets
import ArgSchema.Proofs.Preprocessor.Origin
import ArgSchema.Proofs.Text.Binary64
import ArgSchema.Proofs.Text.Encoding

/-! Spellings: which texts the tokens of each kind can have. -/

namespace ArgSchema

/-- A text that is one byte of some kind and then bytes that names go on with. -/
def IsName (head : UInt8 → Bool) (text : String) : Prop :=
  ∃ first rest, text = Utf8.ascii (first :: rest) ∧ head first = true ∧
    ∀ b ∈ rest, isNameByte b = true

/-- A bare word. -/
def IsWord (text : String) : Prop := IsName isNameStart text

/-- A byte that can stand behind two dashes. -/
def isLonglabelStart (b : UInt8) : Bool := isLetter b || isDigit b || b = byte '_'

/-- A byte that can stand behind one dash. -/
def isShortlabel (b : UInt8) : Bool := isLetter b || isDigit b || b = byte '?'

/-- A byte that can stand in angle brackets. -/
def isTypeByte (b : UInt8) : Bool := b ≠ byte '>' && !isBlank b

/-- The names that can be written in a category. -/
def Category.Names : Category → String → Prop
  | .identifier, name => IsWord name ∧ name ≠ "meta"
  | .metadata, name => name = "meta"
  | .shortlabel, name => ∃ b, name = Utf8.ascii [b] ∧ isShortlabel b = true
  | .longlabel, name => IsName isLonglabelStart name
  | .type, name => ∃ bytes, bytes ≠ [] ∧ (∀ b ∈ bytes, isTypeByte b = true) ∧
      name = Utf8.decodeLossy bytes
  | .property, name => IsWord name

/-- The texts that a token of a kind can have. -/
def TokenKind.Spelled : TokenKind → String → Prop
  | .identifier, text => IsWord text
  | .shortlabel, text => Category.shortlabel.Names text
  | .longlabel, text => Category.longlabel.Names text
  | .type, text => Category.type.Names text
  | .property, text => Category.property.Names text
  | .reference category given, text => category ≠ .property ∧ category.Names text ∧ IsWord given
  | .number value, _ => leastInteger ≤ value ∧ value ≤ greatestInteger
  | .decimal value, _ => value.isNaN = false ∧ value.isInfinite = false
  | .regex, text => Lexeme.RawText (Utf8.encode text)
  | .snippet, text => Lexeme.IsCode (Utf8.encode text)
  | _, _ => True

/-- A token has a text of its kind. -/
def Token.Spelled (token : Token) : Prop := token.kind.Spelled token.text

section Bytes

/-- Bytes of names are below 128. -/
theorem small_of_isNameByte {b : UInt8} (name : isNameByte b = true) : b < 0x80 := by
  simp only [isNameByte, isLetter, isDigit, byte, Bool.or_eq_true, Bool.and_eq_true,
    decide_eq_true_eq] at name
  -- Letters and digits are ranges below 128, and so are the other bytes of names.
  rcases name with ((((⟨_, high⟩ | ⟨_, high⟩) | ⟨_, high⟩) | same) | same)
  · exact UInt8.lt_of_le_of_lt high (by decide)
  · exact UInt8.lt_of_le_of_lt high (by decide)
  · exact UInt8.lt_of_le_of_lt high (by decide)
  · exact same ▸ by decide
  · exact same ▸ by decide

/-- What a name starts with, it can go on with. -/
theorem isNameByte_of_isNameStart {b : UInt8} (start : isNameStart b = true) :
    isNameByte b = true := by
  -- A name starts with a letter or an underscore.
  simp only [isNameStart, isNameByte, Bool.or_eq_true, decide_eq_true_eq] at start ⊢
  rcases start with letter | line
  · exact .inl (.inl (.inl letter))
  · exact .inl (.inr line)

/-- What a longlabel starts with, it can go on with. -/
theorem isNameByte_of_isLonglabelStart {b : UInt8} (start : isLonglabelStart b = true) :
    isNameByte b = true := by
  -- A long label starts with a letter, a digit or an underscore.
  simp only [isLonglabelStart, isNameByte, Bool.or_eq_true, decide_eq_true_eq] at start ⊢
  rcases start with (letter | digit) | line
  · exact .inl (.inl (.inl letter))
  · exact .inl (.inl (.inr digit))
  · exact .inl (.inr line)

/-- A byte that can stand behind one dash is below 128. -/
theorem small_of_isShortlabel {b : UInt8} (short : isShortlabel b = true) : b < 0x80 := by
  -- A short label is a letter, a digit or a question mark.
  simp only [isShortlabel, Bool.or_eq_true, decide_eq_true_eq] at short
  rcases short with (letter | digit) | same
  · exact small_of_isNameByte (by simp [isNameByte, letter])
  · exact small_of_isNameByte (by simp [isNameByte, digit])
  · exact same ▸ by decide

end Bytes

namespace Lexeme

/-- If a lexeme is a token, it has a text of its kind. -/
def Spelled (lexeme : Lexeme) : Prop :=
  ∀ kind text warning?, lexeme.content = .token kind text warning? → kind.Spelled text

/-- A token with a text of its kind. -/
theorem spelled_plain (kind : TokenKind) {text : String} (fits : kind.Spelled text) (tail : Nat) :
    (plain kind text tail).Spelled := by
  rintro _ _ _ ⟨⟩
  exact fits

/-- What is skipped is no token. -/
theorem spelled_malformed (problem : LexicalProblem) (tail : Nat) :
    (malformed problem tail).Spelled := by
  rintro _ _ _ ⟨⟩

/-- What is skipped up to a blank is no token. -/
theorem spelled_malformedWord (problem : LexicalProblem) (tail : Nat) (rest : Bytes) :
    (malformedWord problem tail rest).Spelled := by
  rintro _ _ _ ⟨⟩

/-- An unexpected byte is no token. -/
theorem spelled_unexpected (tail : Nat) (found : UInt8) (rest : Bytes) :
    (unexpected tail found rest).Spelled := by
  rintro _ _ _ ⟨⟩

/-- Bytes of a name behind its first byte make a name. -/
theorem isName_takeWhile {head : UInt8 → Bool} {first : UInt8} (start : head first = true)
    (small : first < 0x80) (rest : Bytes) :
    IsName head (Utf8.decodeLossy (first :: rest.takeWhile isNameByte)) := by
  have bytes : ∀ b ∈ rest.takeWhile isNameByte, isNameByte b = true :=
    fun b member => List.all_eq_true.mp List.all_takeWhile b member
  -- All bytes of a name are below 128, so decoding leaves them as they are.
  refine ⟨first, rest.takeWhile isNameByte, Utf8.decodeLossy_eq_ascii fun b member => ?_, start, bytes⟩
  rcases List.mem_cons.mp member with rfl | member
  · exact small
  · exact small_of_isNameByte (bytes b member)

/-- Bytes that start a name and go on with it make a name. -/
theorem isName_of_head {head : UInt8 → Bool}
    (name : ∀ {b}, head b = true → isNameByte b = true) {bytes : Bytes}
    (start : bytes.head?.any head = true) :
    IsName head (Utf8.decodeLossy (bytes.takeWhile isNameByte)) := by
  cases bytes with
  | nil => simp at start
  | cons first rest =>
    -- The first byte is a byte of names too, so the name begins with it.
    have first' : head first = true := by simpa using start
    rw [List.takeWhile_cons_of_pos (name first')]
    exact isName_takeWhile first' (small_of_isNameByte (name first')) rest

/-- A name, or a reference that starts with it. -/
theorem spelled_named (category : Category) {text : String} (name : category.Names text)
    (other : category ≠ .property) (bare : (nameKind category).Spelled text) (tail : Nat)
    (rest : Bytes) : (named category text tail rest).Spelled := by
  unfold named
  -- A reference is a name with a property behind its dot.
  split
  · next dot after =>
    split
    · split
      · next start =>
        exact spelled_plain (.reference category _)
          ⟨other, name, isName_of_head isNameByte_of_isNameStart start⟩ _
      · exact spelled_malformedWord _ _ _
    · exact spelled_plain _ bare _
  · exact spelled_plain _ bare _

/-- An integer literal stands for an integer of 64 bits. -/
theorem spelled_integer (negative : Bool) (digits : Bytes) :
    (integer negative digits).1.Spelled (integer negative digits).2.1 := by
  rw [integer_eq]
  -- What is out of range is replaced by the bound that it exceeds.
  exact ⟨Int.le_max_left _ _, Int.max_le.mpr ⟨by decide, Int.min_le_left _ _⟩⟩

/-- A decimal literal stands for a finite number. -/
theorem spelled_fraction (negative : Bool) (whole places : Bytes) :
    (fraction negative whole places).1.Spelled (fraction negative whole places).2.1 := by
  -- The value is finite, or it is replaced.
  unfold fraction
  simp only
  split
  · -- What is too great is replaced by the greatest number.
    exact Binary64.largest_finite negative
  · next finite => exact ⟨Binary64.isNaN_ofDecimal _ _, by simpa using finite⟩

/-- A number is in the range of its kind. -/
theorem spelled_number (negative : Bool) (before : Nat) (bytes : Bytes) :
    (number negative before bytes).Spelled := by
  unfold number
  -- The literal is an integer or a decimal, and both are in range.
  simp only
  rintro _ _ _ ⟨⟩
  split
  · split
    · exact spelled_fraction _ _ _
    · exact spelled_integer _ _
  · exact spelled_integer _ _

/-- A name behind two dashes. -/
theorem spelled_doubleDash (rest : Bytes) : (doubleDash rest).Spelled := by
  unfold doubleDash
  -- One case for each byte that can stand behind two dashes.
  split
  · exact spelled_malformed _ _
  · next b after =>
    split
    · split
      · exact spelled_number _ _ _
      · exact spelled_malformedWord _ _ _
    · split
      · next start =>
        have name : IsName isLonglabelStart
            (Utf8.decodeLossy ((b :: after).takeWhile isNameByte)) :=
          isName_of_head isNameByte_of_isLonglabelStart (by simpa [isLonglabelStart] using start)
        exact spelled_named .longlabel name (by decide) name _ _
      · split
        · exact spelled_malformed _ _
        · exact spelled_unexpected _ _ _

/-- A character behind one dash. -/
theorem spelled_dash (rest : Bytes) : (dash rest).Spelled := by
  unfold dash
  -- One case for each byte that can stand behind the dash.
  split
  · exact spelled_malformed _ _
  · next b after =>
    split
    · exact spelled_malformed _ _
    · split
      · exact spelled_doubleDash _
      · split
        · next start =>
          simp only
          split
          · have short : isShortlabel b = true := by simpa [isShortlabel] using start
            have name : Category.shortlabel.Names (Utf8.decodeLossy [b]) :=
              ⟨b, Utf8.decodeLossy_eq_ascii (by simpa using small_of_isShortlabel short), short⟩
            exact spelled_named .shortlabel name (by decide) name _ _
          · exact spelled_malformed _ _
        · exact spelled_unexpected _ _ _

/-- A name in angle brackets. -/
theorem spelled_angle (rest : Bytes) : (angle rest).Spelled := by
  -- A type is spelled only if its bracket is closed.
  unfold angle
  simp only
  split
  · -- Between the brackets there is something, and neither a blank nor a bracket.
    split
    · exact spelled_malformed _ _
    · next filled =>
      have name : Category.type.Names
          (Utf8.decodeLossy (rest.takeWhile fun b => b ≠ byte '>' && !isBlank b)) :=
        ⟨_, fun empty => filled (List.isEmpty_iff.mpr empty),
          fun b member => List.all_eq_true.mp List.all_takeWhile b member, rfl⟩
      exact spelled_named .type name (by decide) name _ _
  · exact spelled_malformed _ _

/-- Three dots, or a name behind one. -/
theorem spelled_dot (rest : Bytes) : (dot rest).Spelled := by
  -- Dots have no text to spell, and a property has a name.
  unfold dot
  split
  · exact spelled_plain .ellipsis trivial _
  · split
    · next start =>
      exact spelled_plain .property (isName_of_head isNameByte_of_isNameStart start) _
    · exact spelled_unexpected _ _ _

/-- A bare word. -/
theorem spelled_word {first : UInt8} (start : isNameStart first = true) (rest : Bytes) :
    (word first rest).Spelled := by
  -- The word goes as far as the bytes of names.
  have name : IsWord (Utf8.decodeLossy (first :: rest.takeWhile isNameByte)) :=
    isName_takeWhile start (small_of_isNameByte (isNameByte_of_isNameStart start)) rest
  unfold word
  simp only
  split
  · -- The word for the schema is of a category of its own.
    next same => exact spelled_named .metadata same (by decide) name _ _
  · next other => exact spelled_named .identifier ⟨name, other⟩ (by decide) name _ _

/-- Quoted text can be any text, and raw text what raw quotes can hold. -/
theorem spelled_quotation (kind : TokenKind) (tail : Nat) (rest : Bytes)
    (fits : ∀ value length, quoted (kind = .regex) rest = .closed value length →
      kind.Spelled (Utf8.decodeLossy value)) : (quotation kind tail rest).Spelled := by
  -- Only a closed quotation is a token.
  unfold quotation
  split
  · next value length closed => exact spelled_plain kind (fits value length closed) _
  · rintro _ _ _ ⟨⟩
  · rintro _ _ _ ⟨⟩

/-- A truth value in parentheses. -/
theorem spelled_parenthesis (rest : Bytes) : (parenthesis rest).Spelled := by
  unfold parenthesis
  simp only
  -- Only the two words make a token.
  split
  · split
    · exact spelled_plain (.boolean true) trivial _
    · split
      · exact spelled_plain (.boolean false) trivial _
      · exact spelled_malformed _ _
  · exact spelled_malformed _ _

/-- A snippet of code. -/
theorem spelled_plus (rest : Bytes) : (plus rest).Spelled := by
  -- Only closed code is a token.
  unfold plus
  split
  · split
    · next length closed => exact spelled_plain .snippet (isCode_of_closed closed) _
    · rintro _ _ _ ⟨⟩
    · rintro _ _ _ ⟨⟩
  · exact spelled_unexpected _ _ _

/-- A comment is no token. -/
theorem spelled_slash (rest : Bytes) : (slash rest).Spelled := by
  -- Comments, malformed text and unclosed comments are all that starts with a slash.
  unfold slash
  split
  · rintro _ _ _ ⟨⟩
  · split
    · split <;> rintro _ _ _ ⟨⟩
    · exact spelled_unexpected _ _ _

/-- A name behind a sigil can be any text of its kind. -/
theorem spelled_sigil (kind : TokenKind) (fits : ∀ text, kind.Spelled text) (mark : Char)
    (rest : Bytes) : (sigil kind mark rest).Spelled := by
  -- Without a name behind it the sign is malformed.
  unfold sigil
  simp only
  split
  · exact spelled_malformedWord _ _ _
  · exact spelled_plain kind (fits _) _

/-- Punctuation has no spelling to keep. -/
theorem spelled_punctuation {b : UInt8} {kind : TokenKind} (mark : punctuation? b = some kind)
    (text : String) : kind.Spelled text := by
  -- Marks have no text to spell.
  unfold punctuation? at mark
  repeat' split at mark
  all_goals cases mark
  all_goals trivial

/-- Of two lexemes one is chosen. -/
theorem spelled_ite {test : Prop} [Decidable test] {yes no : Lexeme} (first : test → yes.Spelled)
    (second : ¬test → no.Spelled) : (if test then yes else no).Spelled := by
  split
  · exact first ‹_›
  · exact second ‹_›

/-- Every lexeme that is a token has a text of its kind. -/
theorem spelled_recognize (first : UInt8) (rest : Bytes) : (recognize first rest).Spelled := by
  unfold recognize
  -- The first byte decides what the lexeme is, in this order.
  refine spelled_ite (fun _ => spelled_slash rest) fun _ => ?_
  refine spelled_ite (fun _ => spelled_dash rest) fun _ => ?_
  refine spelled_ite (fun _ => spelled_angle rest) fun _ => ?_
  refine spelled_ite (fun _ => spelled_dot rest) fun _ => ?_
  refine spelled_ite (fun _ => spelled_quotation .string _ _ fun _ _ _ => trivial) fun _ => ?_
  refine spelled_ite (fun _ => spelled_quotation .regex _ _ fun value _ closed =>
    (rawText_of_blurs (Utf8.blurs_decodeLossy value)).1 (rawText_of_quoted closed)) fun _ => ?_
  refine spelled_ite (fun _ => spelled_parenthesis rest) fun _ => ?_
  refine spelled_ite (fun _ => spelled_plus rest) fun _ => ?_
  refine spelled_ite (fun _ => spelled_number _ _ _) fun _ => ?_
  refine spelled_ite (fun _ => spelled_sigil .directive (fun _ => trivial) _ _) fun _ => ?_
  refine spelled_ite (fun _ => spelled_sigil .modifier (fun _ => trivial) _ _) fun _ => ?_
  cases mark : punctuation? first with
  | some kind => exact spelled_plain kind (spelled_punctuation mark _) _
  | none =>
    exact spelled_ite (fun start => spelled_word start rest) fun _ => spelled_unexpected _ _ _

end Lexeme

/-- Every token that is read from a text has a text of its kind. -/
theorem Cursor.brings_spelled : Cursor.Brings Token.Spelled := by
  intro breadcrumb cursor token taken
  fun_induction Cursor.nextToken breadcrumb cursor with
  | case1 cursor start found =>
    -- The end has no text to keep.
    cases taken
    trivial
  | case2 cursor start first rest found lexeme stop span kind text warning content =>
    -- A token has the text of its lexeme; comments and malformed text come before it.
    cases taken
    exact Lexeme.spelled_recognize first rest _ _ _ content
  | case3 cursor start first rest found lexeme stop content ih => exact ih taken
  | case4 cursor start first rest found lexeme stop problem marked content place ih =>
    exact ih taken
  | case5 => cases taken
  | case6 => cases taken

end ArgSchema
