import ArgSchema.Proofs.Lexer.Reads
import ArgSchema.Proofs.Lexer.Spelling

/-! Names and references: they read back from the way they are written. -/

namespace ArgSchema

/-- A text of bytes below 128 is stored as these bytes. -/
theorem Utf8.encode_ascii {bytes : Bytes} (small : ∀ b ∈ bytes, b < 0x80) :
    encode (ascii bytes) = bytes := by
  induction bytes with
  | nil => rfl
  | cons b rest ih =>
    -- The character of a small byte is stored as that byte.
    have code : b.toNat < 128 := UInt8.lt_iff_toNat_lt.mp (small b (by simp))
    have char := toNat_ofNat_of_valid (.inl (by omega) : b.toNat.isValidChar)
    have own : String.utf8EncodeChar (Char.ofNat b.toNat) = [b] := by
      rw [encodeChar_ascii (by omega), char, UInt8.ofNat_toNat]
    have more := ih fun other member => small other (by simp [member])
    rw [ascii, encode_ofList, List.map_cons, List.flatMap_cons, own, ← encode_ofList]
    exact congrArg (b :: ·) more

/-- What was taken ends where a byte does not fit. -/
theorem takeWhile_append_stop {P : UInt8 → Bool} {front back : Bytes}
    (all : ∀ b ∈ front, P b = true) (stop : ∀ b ∈ back.head?, P b = false) :
    (front ++ back).takeWhile P = front := by
  rw [List.takeWhile_append_of_pos all]
  cases back with
  | nil => simp
  -- Where the taken bytes end there is nothing, or a byte that does not fit.
  | cons b rest => rw [List.takeWhile_cons_of_neg (by simp [stop b (by simp)]), List.append_nil]

/-- Bytes that neither go on with a name nor turn it into something else. -/
def Stops (rest : Bytes) : Prop := ∀ b ∈ rest.head?, isNameByte b = false ∧ b ≠ byte '"'

/-- Bytes that leave a name or a number in front of them alone; a dot must be one of several. -/
structure Apart (rest : Bytes) : Prop where
  /-- A name does not go on. -/
  stops : Stops rest
  /-- A dot does not belong to what stands in front of it. -/
  dots : ∀ after, rest = byte '.' :: after → after.head? = some (byte '.')

/-- Nothing leaves everything in front of it alone. -/
theorem apart_nil : Apart [] := ⟨by simp [Stops], nofun⟩

/-- A byte that no name, number or reference goes on with leaves these alone. -/
theorem apart_cons {b : UInt8} (name : isNameByte b = false) (quote : b ≠ byte '"')
    (dot : b ≠ byte '.') (rest : Bytes) : Apart (b :: rest) := by
  -- A single byte decides: it is none of those, and a dot would have to be it.
  refine ⟨fun other member => ?_, fun after same => absurd (List.cons.inj same).1 dot⟩
  cases Option.some.inj member
  exact ⟨name, quote⟩

/-- Two dots leave everything in front of them alone. -/
theorem apart_dots (rest : Bytes) : Apart (byte '.' :: byte '.' :: rest) := by
  -- A dot neither goes on a name nor opens a comment.
  refine ⟨fun other member => ?_, fun after same => ?_⟩
  · cases Option.some.inj member
    exact ⟨by decide, by decide⟩
  · rw [← (List.cons.inj same).2]
    rfl

/-- A token that takes its bytes and no others is read. -/
theorem Reads.one {first : UInt8} {body rest : Bytes} {kind : TokenKind} {text : String}
    (start : isBlank first = false)
    (recognized : Lexeme.recognize first (body ++ rest) = Lexeme.plain kind text body.length) :
    Reads (first :: body ++ rest) [(kind, text)] rest := by
  -- The lexeme takes its whole body, so what is left is what is behind it.
  rw [List.cons_append]
  refine .token start recognized ?_
  rw [List.drop_left]
  exact .none

section Bytes

/-- A byte that a name starts with is no byte that no name starts with. -/
theorem ne_of_isNameStart {b : UInt8} {c : Char} (start : isNameStart b = true)
    (other : isNameStart (byte c) = false) : b ≠ byte c := by
  -- If they were the same byte, it would pass the test and fail it.
  rintro rfl
  rw [start] at other
  cases other

/-- No name starts with a digit. -/
theorem isDigit_of_isNameStart {b : UInt8} (start : isNameStart b = true) : isDigit b = false := by
  -- Digits and the bytes that start a name lie in different ranges.
  simp only [isNameStart, isLetter, isDigit, byte, Bool.or_eq_true, Bool.and_eq_true,
    decide_eq_true_eq, UInt8.le_iff_toNat_le, ← UInt8.toNat_inj] at start ⊢
  simp only [Bool.and_eq_false_iff, decide_eq_false_iff_not]
  change ((97 ≤ b.toNat ∧ b.toNat ≤ 122 ∨ 65 ≤ b.toNat ∧ b.toNat ≤ 90) ∨ b.toNat = 95) at start
  change (¬48 ≤ b.toNat ∨ ¬b.toNat ≤ 57)
  omega

/-- A byte that can stand behind one dash is neither a blank nor a dash. -/
theorem plain_of_isShortlabel {b : UInt8} (short : isShortlabel b = true) :
    isBlank b = false ∧ b ≠ byte '-' := by
  constructor
  · cases blank : isBlank b with
    | false => rfl
    | true =>
      -- No blank is among the bytes that fit.
      simp only [isBlank, Bool.or_eq_true, decide_eq_true_eq] at blank
      rcases blank with ((rfl | rfl) | rfl) | rfl <;> cases short
  · rintro rfl
    cases short

/-- A byte that can stand behind two dashes is no dash. -/
theorem ne_dash_of_isLonglabelStart {b : UInt8} (start : isLonglabelStart b = true) :
    b ≠ byte '-' := by
  rintro rfl
  cases start

/-- A byte that a name starts with is no blank. -/
theorem isBlank_of_isNameStart {b : UInt8} (start : isNameStart b = true) : isBlank b = false := by
  -- None of the four blanks is a letter or an underscore.
  cases blank : isBlank b with
  | false => rfl
  | true =>
    simp only [isBlank, Bool.or_eq_true, decide_eq_true_eq] at blank
    rcases blank with ((rfl | rfl) | rfl) | rfl <;> cases start

end Bytes

/-- A name is stored as a byte that fits its start, and others that names go on with. -/
theorem IsName.bytes {head : UInt8 → Bool} (fits : ∀ {b}, head b = true → isNameByte b = true)
    {name : String} (given : IsName head name) :
    ∃ first rest, Utf8.encode name = first :: rest ∧ head first = true ∧
      (∀ b ∈ first :: rest, isNameByte b = true) ∧
      Utf8.decodeLossy (first :: rest) = name := by
  obtain ⟨first, rest, rfl, start, more⟩ := given
  -- Every byte of the name is one that names go on with, and so is small.
  have all : ∀ b ∈ first :: rest, isNameByte b = true := by
    simp only [List.mem_cons, forall_eq_or_imp]
    exact ⟨fits start, more⟩
  have small : ∀ b ∈ first :: rest, b < 0x80 := fun b member => small_of_isNameByte (all b member)
  exact ⟨first, rest, Utf8.encode_ascii small, start, all, Utf8.decodeLossy_eq_ascii small⟩

namespace Lexeme

/-- A name that nothing is joined to is a name. -/
theorem named_apart {rest : Bytes} (apart : Apart rest) (category : Category) (text : String)
    (tail : Nat) : named category text tail rest = plain (nameKind category) text tail := by
  unfold named
  split
  · next dot after =>
    rw [if_neg]
    -- A dot behind the name would have to be followed by another.
    rintro ⟨rfl, other⟩
    exact other (apart.dots after rfl)
  · rfl

/-- A name, a dot and a property are a reference. -/
theorem named_property {property : String} (word : IsWord property) {rest : Bytes}
    (stops : Stops rest) (category : Category) (text : String) (tail : Nat) :
    named category text tail (byte '.' :: (Utf8.encode property ++ rest)) =
      plain (.reference category property) text (tail + 1 + (Utf8.encode property).length) := by
  obtain ⟨first, more, same, start, all, read⟩ := IsName.bytes isNameByte_of_isNameStart word
  -- The property is taken to its end, and it does not start with a second dot.
  have taken := takeWhile_append_stop all fun b member => (stops b member).1
  have other : (first :: more ++ rest).head? ≠ some (byte '.') := fun dot =>
    ne_of_isNameStart start (by decide) (Option.some.inj dot)
  have begins : (first :: more ++ rest).head?.any isNameStart = true := start
  rw [same]
  unfold named
  simp only [begins, if_true, taken, read]
  exact if_pos ⟨trivial, other⟩

/-- A bare word is recognized as one. -/
theorem recognize_word {first : UInt8} (start : isNameStart first = true) {rest : Bytes}
    (quote : rest.head? ≠ some (byte '"')) : recognize first rest = word first rest := by
  -- What starts a name starts nothing else.
  have other : ∀ {c : Char}, isNameStart (byte c) = false → first ≠ byte c :=
    fun apart => ne_of_isNameStart start apart
  have mark : punctuation? first = none := by
    unfold punctuation?
    rw [if_neg (other (by decide)), if_neg (other (by decide)), if_neg (other (by decide)),
      if_neg (other (by decide)), if_neg (other (by decide))]
  unfold recognize
  rw [if_neg (other (by decide)), if_neg (other (by decide)), if_neg (other (by decide)),
    if_neg (other (by decide)), if_neg (other (by decide)), if_neg fun raw => quote raw.2,
    if_neg (other (by decide)), if_neg (other (by decide)),
    if_neg (by simp [isDigit_of_isNameStart start]), if_neg (other (by decide)),
    if_neg (other (by decide)), mark]
  exact if_pos start

/-- A word is recognized as a name of its category. -/
theorem recognize_name_word {name : String} (given : IsWord name) {after : Bytes}
    (stops : Stops after) :
    ∃ first body, Utf8.encode name = first :: body ∧ isBlank first = false ∧
      recognize first (body ++ after) =
        named (if name = "meta" then .metadata else .identifier) name body.length after := by
  obtain ⟨first, body, same, start, all, read⟩ := IsName.bytes isNameByte_of_isNameStart given
  have taken : (body ++ after).takeWhile isNameByte = body :=
    takeWhile_append_stop (fun b member => all b (by simp [member])) fun b member =>
      (stops b member).1
  -- A word in front of a quote would be raw text.
  have quote : (body ++ after).head? ≠ some (byte '"') := by
    cases body with
    | nil => exact fun head => (stops _ head).2 rfl
    | cons b rest =>
      intro head
      have name := all b (by simp)
      rw [Option.some.inj head] at name
      exact absurd name (by decide)
  refine ⟨first, body, same, isBlank_of_isNameStart start, ?_⟩
  rw [recognize_word start quote, word]
  simp only [taken, read, List.length_cons, Nat.add_sub_cancel, List.drop_left]

/-- A name in angle brackets is stored as bytes that can stand there. -/
theorem bytes_of_type {name : String} (names : Category.type.Names name) :
    Utf8.encode name ≠ [] ∧ ∀ b ∈ Utf8.encode name, isTypeByte b = true := by
  obtain ⟨bytes, some, fits, rfl⟩ := names
  -- Lossy reading keeps all bytes below 128, and so makes no blanks and no brackets.
  have blurs := Utf8.blurs_decodeLossy bytes
  refine ⟨fun none => some (blurs.eq_nil_iff.mpr none), blurs.forall (fun b high => ?_) fits⟩
  have other : ∀ {c : Char}, byte c < 0x80 → b ≠ byte c := ne_byte_of_high high
  simp [isTypeByte, isBlank, other (show byte '>' < 0x80 by decide),
    other (show byte ' ' < 0x80 by decide), other (show byte '\t' < 0x80 by decide),
    other (show byte '\n' < 0x80 by decide), other (show byte '\r' < 0x80 by decide)]

/-- A name of a category is recognized as one in front of some bytes. -/
def RecognizesName (category : Category) (name : String) (after : Bytes) : Prop :=
  ∃ first body, Utf8.encode (category.external name) = first :: body ∧ isBlank first = false ∧
    recognize first (body ++ after) = named category name body.length after

section RecognizesName

variable {name : String} {after : Bytes}

/-- Behind one dash stands a single byte, since no byte of a name follows it. -/
theorem recognizesName_shortlabel (names : Category.shortlabel.Names name) (stops : Stops after) :
    RecognizesName .shortlabel name after := by
  obtain ⟨b, rfl, short⟩ := names
  obtain ⟨blank, dash'⟩ := plain_of_isShortlabel short
  have small : ∀ x ∈ [b], x < 0x80 := by simpa using small_of_isShortlabel short
  -- Nothing behind the byte belongs to the name.
  have taken : after.takeWhile isNameByte = [] :=
    @takeWhile_append_stop isNameByte [] after (by simp) fun b member => (stops b member).1
  refine ⟨byte '-', [b], ?_, by decide, ?_⟩
  · rw [Category.external, Utf8.encode_append, Utf8.encode_ascii small]
    rfl
  · have found : recognize (byte '-') ([b] ++ after) = dash (b :: after) := rfl
    have fits : isLetter b || isDigit b || decide (b = byte '?') := short
    rw [found, dash]
    simp only [blank, dash', fits, taken, Bool.false_eq_true, if_false, if_true,
      List.isEmpty_nil, Utf8.decodeLossy_eq_ascii small, List.length_singleton]

/-- Behind two dashes the name goes on as far as its bytes do. -/
theorem recognizesName_longlabel (names : Category.longlabel.Names name) (stops : Stops after) :
    RecognizesName .longlabel name after := by
  obtain ⟨first, more, same, start, all, read⟩ := IsName.bytes isNameByte_of_isLonglabelStart names
  -- The name stops where its bytes do, and the first of them is no dash.
  have taken := takeWhile_append_stop all fun b member => (stops b member).1
  refine ⟨byte '-', byte '-' :: first :: more, ?_, by decide, ?_⟩
  · rw [Category.external, Utf8.encode_append, same]
    rfl
  · have found : recognize (byte '-') (byte '-' :: first :: more ++ after) =
        doubleDash (first :: more ++ after) := rfl
    have fits : isLetter first || isDigit first || decide (first = byte '_') := start
    rw [found, List.cons_append, doubleDash, if_neg (ne_dash_of_isLonglabelStart start),
      if_pos fits, ← List.cons_append]
    simp only [taken, read, List.drop_left]
    rw [List.length_cons, Nat.add_comm]
    rfl

/-- A type goes on up to the closing bracket, which is no byte of its name. -/
theorem recognizesName_type (names : Category.type.Names name) (after : Bytes) :
    RecognizesName .type name after := by
  obtain ⟨filled, all⟩ := bytes_of_type names
  -- The closing bracket is no byte of a name.
  have taken : (Utf8.encode name ++ byte '>' :: after).takeWhile isTypeByte =
      Utf8.encode name := takeWhile_append_stop all (by simp; decide)
  refine ⟨byte '<', Utf8.encode name ++ [byte '>'], ?_, by decide, ?_⟩
  · rw [Category.external, Utf8.encode_append, Utf8.encode_append]
    rfl
  · have found : recognize (byte '<') (Utf8.encode name ++ [byte '>'] ++ after) =
        angle (Utf8.encode name ++ [byte '>'] ++ after) := rfl
    have taken : (Utf8.encode name ++ byte '>' :: after).takeWhile
        (fun b => b ≠ byte '>' && !isBlank b) = Utf8.encode name := taken
    rw [found, List.append_assoc, List.singleton_append, angle]
    simp only [taken, List.drop_left, List.head?_cons, if_true, List.isEmpty_iff, filled,
      if_false, Utf8.decodeLossy_encode, List.drop_succ_cons, List.drop_zero, List.length_append,
      List.length_singleton]

/-- A name is recognized as one of its category. -/
theorem recognize_name {category : Category} (names : category.Names name)
    (other : category ≠ .property) (stops : Stops after) : RecognizesName category name after := by
  cases category with
  | property => exact absurd rfl other
  -- A word is written as it is, and the word for the schema is one of them.
  | identifier =>
    obtain ⟨first, body, same, start, found⟩ := recognize_name_word names.1 stops
    rw [if_neg names.2] at found
    exact ⟨first, body, same, start, found⟩
  | metadata =>
    obtain rfl : name = "meta" := names
    have word : IsWord "meta" :=
      ⟨byte 'm', [byte 'e', byte 't', byte 'a'], by decide, by decide, List.all_eq_true.mp rfl⟩
    obtain ⟨first, body, same, start, found⟩ := recognize_name_word word stops
    exact ⟨first, body, same, start, found⟩
  | shortlabel => exact recognizesName_shortlabel names stops
  | longlabel => exact recognizesName_longlabel names stops
  | type => exact recognizesName_type names after

end RecognizesName

end Lexeme

/-- A name is read as one token. -/
theorem reads_label {category : Category} {name : String} (names : category.Names name)
    {rest : Bytes} (apart : Apart rest) :
    Reads (Utf8.encode (category.external name) ++ rest) [(Lexeme.nameKind category, name)]
      rest := by
  -- A property starts with a point, and may not start with two.
  by_cases other : category = .property
  · subst other
    obtain ⟨first, more, same, start, all, read⟩ :=
      IsName.bytes isNameByte_of_isNameStart names
    have taken := takeWhile_append_stop all fun b member => (apart.stops b member).1
    have stored : Utf8.encode (Category.external .property name) =
        byte '.' :: Utf8.encode name := by
      rw [Category.external, Utf8.encode_append]
      rfl
    rw [stored]
    refine .one (by decide) ?_
    have found : Lexeme.recognize (byte '.') (Utf8.encode name ++ rest) =
        Lexeme.dot (Utf8.encode name ++ rest) := rfl
    have dots : (first :: more ++ rest).take 2 ≠ [byte '.', byte '.'] := fun both =>
      ne_of_isNameStart start (by decide) (List.cons.inj both).1
    -- Its name starts behind the point.
    have begins : (first :: more ++ rest).head?.any isNameStart = true := start
    rw [found, same, Lexeme.dot, if_neg dots, if_pos begins]
    simp only [taken, read, Lexeme.nameKind]
  · -- Any other name is read as its category is, and nothing is joined to it.
    obtain ⟨first, body, same, start, found⟩ := Lexeme.recognize_name names other apart.stops
    rw [same]
    refine .one start ?_
    rw [found, Lexeme.named_apart apart]

/-- A reference is read as one token. -/
theorem reads_reference {category : Category} {name property : String}
    (names : category.Names name) (other : category ≠ .property) (word : IsWord property)
    {rest : Bytes} (stops : Stops rest) :
    Reads (Utf8.encode (category.external name ++ "." ++ property) ++ rest)
      [(.reference category property, name)] rest := by
  -- The dot ends the name in front of it.
  have dot : Stops (byte '.' :: (Utf8.encode property ++ rest)) := by
    intro b member
    cases Option.some.inj member
    exact ⟨by decide, by decide⟩
  obtain ⟨first, body, same, start, found⟩ := Lexeme.recognize_name names other dot
  have stored : Utf8.encode (category.external name ++ "." ++ property) =
      first :: (body ++ byte '.' :: Utf8.encode property) := by
    rw [Utf8.encode_append, Utf8.encode_append, same]
    simp [Utf8.encode]
    rfl
  rw [stored]
  refine .one start ?_
  rw [List.append_assoc, List.cons_append, found, Lexeme.named_property word stops]
  congr 1
  simp
  omega

end ArgSchema
