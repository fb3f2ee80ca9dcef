import ArgSchema.Proofs.Layout.Prints
import ArgSchema.Proofs.Layout.Texts

/-! Printed items: the text of a file is read as tokens that the grammar derives the file from. -/

namespace ArgSchema

namespace Utf8

/-- Texts with another between them are encoded one after the other. -/
theorem encode_intercalate (between first : String) (more : List String) :
    encode (between.intercalate (first :: more)) =
      encode first ++ more.flatMap fun text => encode between ++ encode text := by
  -- By induction on the texts behind the first, each with a separator in front.
  induction more generalizing first with
  | nil => simp
  | cons text more ih =>
    rw [String.intercalate_cons_cons, encode_append, encode_append, ih, List.flatMap_cons]
    simp

end Utf8

/-- Text whose bytes are those of a word is a word. -/
theorem isWord_of_encode {text : String} {first : UInt8} {rest : Bytes}
    (stored : Utf8.encode text = first :: rest) (start : isNameStart first = true)
    (all : ∀ b ∈ rest, isNameByte b = true) : IsWord text := by
  refine ⟨first, rest, ?_, start, all⟩
  -- Bytes of words are below 128, so the text reads back as these bytes.
  rw [← Utf8.decodeLossy_encode text, stored]
  refine Utf8.decodeLossy_eq_ascii fun b member => small_of_isNameByte ?_
  rcases List.mem_cons.mp member with rfl | member
  · exact isNameByte_of_isNameStart start
  · exact all b member

/-- The name of a class of warnings is a word. -/
theorem WarningClass.isWord_name (kind : WarningClass) :
    IsWord kind.name ∧ kind.name ≠ "meta" ∧ WarningClass.ofName? kind.name = some kind := by
  cases kind <;> exact ⟨isWord_of_encode rfl rfl (List.all_eq_true.mp rfl), by decide, rfl⟩

namespace Prints

variable {Phrase : List Token → Prop} {text rest : Bytes}

/-- A blank behind a phrase is skipped. -/
theorem trail {b : UInt8} (prints : Prints Phrase text (b :: rest)) (space : isBlank b = true) :
    Prints Phrase (text ++ [b]) rest := by
  -- A blank is skipped in front of what follows, so it can stand behind the phrase.
  obtain ⟨contents, reads, plain, phrase⟩ := prints
  refine ⟨contents, ?_, plain, phrase⟩
  have both := reads.append (.blank space .none)
  rwa [List.append_nil, ← List.singleton_append (l := rest), ← List.append_assoc] at both

end Prints

/-- A token that is a name. -/
def Named (label : Label) (tokens : List Token) : Prop :=
  ∃ token, tokens = [token] ∧ token.kind = Lexeme.nameKind label.category ∧ token.text = label.name

/-- A name is printed as a token that is the name. -/
theorem Label.prints {label : Label} (spelled : label.Spelled) {rest : Bytes} (apart : Apart rest) :
    Prints (Named label) (Utf8.encode label.text) rest := by
  refine .token (reads_label spelled apart) ?_ fun token kind text => ⟨token, rfl, kind, text⟩
  cases label.category <;> simp [IsPlain, Lexeme.nameKind]

namespace Grammar

/-- A suppression is printed as a modifier and a word. -/
theorem Suppression.prints (kind : WarningClass) {rest : Bytes} (apart : Apart rest) :
    Prints (Suppression kind) (Utf8.encode ("@suppress " ++ kind.name)) rest := by
  obtain ⟨word, other, known⟩ := kind.isWord_name
  have stored : Utf8.encode ("@suppress " ++ kind.name) =
      Utf8.encode "@suppress" ++ byte ' ' :: Utf8.encode kind.name := by
    rw [Utf8.encode_append]
    rfl
  -- The modifier is read as far as its letters, up to the blank.
  have modifier : ∀ after, Reads (Utf8.encode "@suppress" ++ byte ' ' :: after)
      [(.modifier, "suppress")] (byte ' ' :: after) := by
    intro after
    have taken : (Utf8.encode "suppress" ++ byte ' ' :: after).takeWhile isNameByte =
        Utf8.encode "suppress" := takeWhile_append_stop (List.all_eq_true.mp rfl) (by simp; decide)
    have found : ∀ bytes, Lexeme.recognize (byte '@') bytes = Lexeme.sigil .modifier '@' bytes :=
      fun _ => rfl
    have some : (Utf8.encode "suppress").isEmpty = false := rfl
    refine @Reads.one (byte '@') (Utf8.encode "suppress") _ _ _ (by decide) ?_
    rw [found, Lexeme.sigil]
    simp only [taken, some, Bool.false_eq_true, if_false, Utf8.decodeLossy_encode]
  -- As a token it is the modifier that suppresses.
  have first : ∀ after, Prints (fun tokens => ∃ token, tokens = [token] ∧ token.isSuppress = true)
      (Utf8.encode "@suppress") (byte ' ' :: after) := fun after =>
    .token (modifier after) (by simp [IsPlain]) fun token kind text =>
      ⟨token, rfl, by simp [Token.isSuppress, kind, text]⟩
  -- Behind a blank stands the class's name, a word like any other.
  have name : Prints (Named ⟨kind.name, .identifier⟩) (byte ' ' :: Utf8.encode kind.name) rest :=
    .blank (@Label.prints ⟨kind.name, .identifier⟩ ⟨word, other⟩ rest apart) rfl
  rw [stored]
  -- Both tokens together are the suppression that was meant.
  refine ((first _).append name).imp ?_
  rintro _ ⟨_, _, rfl, ⟨modifier, rfl, suppress⟩, word, rfl, kind', text⟩
  exact .pair suppress kind' (text ▸ known)

/-- A keyword is printed as a token that can head its property. -/
theorem prints_keyword {keyword : Label} (spelled : keyword.Spelled)
    (category : keyword.category ∈ [Category.identifier, .metadata, .property]) {rest : Bytes}
    (apart : Apart rest) :
    Prints (fun tokens => ∃ token, tokens = [token] ∧ token.keyword? = some keyword)
      (Utf8.encode keyword.text) rest := by
  refine (Label.prints spelled apart).imp ?_
  rintro _ ⟨token, rfl, kind, text⟩
  refine ⟨token, rfl, ?_⟩
  obtain ⟨name, marks⟩ := keyword
  simp only [List.mem_cons, List.not_mem_nil, or_false] at category
  unfold Label.Spelled at spelled
  -- The keyword is a word, the word for the schema, or a name with a point.
  rcases category with rfl | rfl | rfl
  · have other : name ≠ "meta" := spelled.2
    have kind : token.kind = .identifier := kind
    have text : token.text = name := text
    simp [Token.keyword?, Token.isKeyword, Token.label?, Token.category?, Token.isWord, kind, text,
      other]
  · have schema : name = "meta" := spelled
    have kind : token.kind = .identifier := kind
    have text : token.text = name := text
    simp [Token.keyword?, Token.isKeyword, Token.label?, Token.category?, Token.isWord, kind, text,
      schema]
  · have kind : token.kind = .property := kind
    have text : token.text = name := text
    simp [Token.keyword?, Token.isKeyword, Token.label?, Token.category?, kind, text]

/-- A blank leaves what stands in front of it alone. -/
theorem apart_blank (rest : Bytes) : Apart (byte ' ' :: rest) :=
  apart_cons (by decide) (by decide) (by decide) rest

/-- A value behind a blank leaves what stands in front of it alone. -/
theorem apart_spacedValue (value : NodeKind) (rest : Bytes) :
    Apart (Utf8.encode (spacedValueText value) ++ rest) := by
  rw [spacedValueText, Utf8.encode_append]
  exact apart_blank _

/-- A property is printed on a line of its own. -/
theorem Config.prints {statement : Statement} (spelled : statement.Spelled)
    (some : statement.values ≠ []) (rest : Bytes) :
    Prints (Config statement) (Utf8.encode statement.text) rest := by
  obtain ⟨kinds, keyword, values⟩ := statement
  have stored : Utf8.encode (Statement.text ⟨kinds, keyword, values⟩) = byte '\t' ::
      (kinds.flatMap (fun kind => Utf8.encode (suppressText kind)) ++ (Utf8.encode keyword.text ++
        (values.flatMap (fun value => Utf8.encode (spacedValueText value)) ++
          ([byte ';'] ++ [byte '\n'])))) := by
    simp only [Statement.text, Utf8.encode_append, Utf8.encode_join, List.flatMap_append,
      List.flatMap_map, List.flatMap_cons, List.flatMap_nil, List.append_nil, List.append_assoc]
    rfl
  -- The parts are printed from the back, as each must know what stands behind it.
  have closing : Prints (Mark .semicolon) ([byte ';'] ++ [byte '\n']) rest :=
    .trail (@Prints.mark (byte ';') .semicolon _ (fun _ => rfl) rfl (by simp [IsPlain]) _) rfl
  have value : ∀ value ∈ values, ∀ rest, Apart rest →
      Prints (Value value) (Utf8.encode (spacedValueText value)) rest := by
    intro value member rest apart
    rw [spacedValueText, Utf8.encode_append]
    exact (Value.prints (spelled.values value member) apart).blank rfl
  have suppression : ∀ kind ∈ kinds, ∀ rest, True →
      Prints (Suppression kind) (Utf8.encode (suppressText kind)) rest := by
    intro kind _ rest _
    rw [suppressText, Utf8.encode_append]
    exact (Suppression.prints kind (apart_blank rest)).trail rfl
  -- A semicolon ends what stands in front of it.
  have ended : Apart ([byte ';'] ++ [byte '\n'] ++ rest) :=
    @apart_cons (byte ';') (by decide) (by decide) (by decide) _
  -- Values stand behind blanks, so each leaves what stands in front of it alone.
  obtain ⟨literals, -⟩ := Sequence.prints Apart (fun given rest _ => apart_spacedValue given rest)
    value ended
  have apart : Apart (values.flatMap (fun value => Utf8.encode (spacedValueText value)) ++
      ([byte ';'] ++ [byte '\n']) ++ rest) := by
    obtain ⟨first, others, rfl⟩ := List.exists_cons_of_ne_nil some
    rw [List.flatMap_cons, List.append_assoc, List.append_assoc]
    exact apart_spacedValue first _
  -- The keyword ends where the first value's blank begins.
  have word := prints_keyword spelled.keyword spelled.category apart
  obtain ⟨marks, -⟩ := Sequence.prints (fun _ => True) (fun _ _ _ => trivial) suppression trivial
  rw [stored]
  -- The parts put together are the statement of the grammar.
  refine ((marks.append (word.append (literals.append closing))).blank rfl).imp ?_
  rintro _ ⟨marks, _, rfl, marked, _, _, rfl, ⟨word, rfl, named⟩, literals, _, rfl, written, closing,
    rfl, kind⟩
  have whole := Config.statement marked named some written kind (show Strays [] from by simp [Strays])
  simpa using whole

/-- Properties have values. -/
theorem Body.values_ne_nil {body : List Statement} {tokens : List Token} (written : Body body tokens)
    {statement : Statement} (member : statement ∈ body) : statement.values ≠ [] := by
  -- Each property of a body is written with its values.
  cases written with
  | braces _ _ written _ =>
    obtain ⟨part, given, _⟩ := written.exists_of_mem member
    cases given with
    | statement _ _ some => exact some

/-- A body leaves what stands in front of it alone. -/
theorem apart_bodyText (body : List Statement) (rest : Bytes) :
    Apart (Utf8.encode (bodyText body) ++ rest) := by
  -- A body starts with a blank, whether it is empty or not.
  unfold bodyText
  split
  · exact apart_blank _
  · rw [Utf8.encode_append, Utf8.encode_append]
    exact apart_blank _

/-- A body is printed with each property on a line of its own. -/
theorem Body.prints {body : List Statement}
    (spelled : ∀ statement ∈ body, statement.Spelled ∧ statement.values ≠ []) (rest : Bytes) :
    Prints (Body body) (Utf8.encode (bodyText body)) rest := by
  have properties : ∀ statement ∈ body, ∀ rest, True →
      Prints (Config statement) (Utf8.encode statement.text) rest :=
    fun statement member rest _ =>
      Config.prints (spelled statement member).1 (spelled statement member).2 rest
  obtain ⟨configs, -⟩ := Sequence.prints (fun _ => True) (fun _ _ _ => trivial) properties trivial
  -- The brackets stand around the properties, and the closing one ends its line.
  have closing : Prints (Mark .closeCurly) ([byte '\x7d'] ++ [byte '\n']) rest :=
    .trail (@Prints.mark (byte '\x7d') .closeCurly _ (fun _ => rfl) rfl (by simp [IsPlain]) _) rfl
  have opening : ∀ rest, Prints (Mark .openCurly) [byte '\x7b'] rest :=
    fun rest => @Prints.mark (byte '\x7b') .openCurly _ (fun _ => rfl) rfl (by simp [IsPlain]) rest
  have inner : ∀ tokens, Then (Mark .openCurly) (Then (Sequence Config body) (Mark .closeCurly))
      tokens → Body body tokens := by
    rintro _ ⟨_, _, rfl, ⟨opening, rfl, curly⟩, tokens, _, rfl, written, closing, rfl, kind⟩
    have whole := Body.braces curly (show Strays [] from by simp [Strays]) written kind
    simpa using whole
  unfold bodyText
  -- Without properties the closing bracket stands on the line of the opening one.
  cases body with
  | nil => exact (((opening _).append (configs.append closing)).blank rfl).imp inner
  | cons first others =>
    have stored : Utf8.encode (" \x7b\n" ++ String.join ((first :: others).map Statement.text) ++
        "\x7d\n") = byte ' ' :: ([byte '\x7b'] ++ byte '\n' ::
          ((first :: others).flatMap (fun statement => Utf8.encode statement.text) ++
            ([byte '\x7d'] ++ [byte '\n']))) := by
      rw [Utf8.encode_append, Utf8.encode_append, Utf8.encode_join, List.flatMap_map]
      rfl
    rw [if_neg (by simp), stored]
    exact (((opening _).append ((configs.append closing).blank rfl)).blank rfl).imp inner

/-- A text in brackets, if it is optional, is printed as a phrase in brackets. -/
theorem Bracketed.prints {Phrase : List Token → Prop} {text : String} {rest : Bytes}
    (inner : ∀ rest, Apart rest → Prints Phrase (Utf8.encode text) rest) (apart : Apart rest)
    (optional : Bool) :
    Prints (Bracketed Phrase optional) (Utf8.encode (bracketedText optional text)) rest := by
  cases optional with
  | false => exact (inner rest apart).imp fun _ given => .bare given
  | true =>
    -- Brackets are tokens of their own, whatever stands next to them.
    have stored : Utf8.encode (bracketedText true text) =
        [byte '['] ++ (Utf8.encode text ++ [byte ']']) := by
      rw [bracketedText, if_pos rfl, Utf8.encode_append, Utf8.encode_append, List.append_assoc]
      rfl
    have opening : ∀ rest, Prints (Mark .openSquare) [byte '['] rest :=
      fun rest => @Prints.mark (byte '[') .openSquare _ (fun _ => rfl) rfl (by simp [IsPlain]) rest
    have closing : Prints (Mark .closeSquare) [byte ']'] rest :=
      @Prints.mark (byte ']') .closeSquare _ (fun _ => rfl) rfl (by simp [IsPlain]) rest
    have phrase := inner ([byte ']'] ++ rest)
      (@apart_cons (byte ']') (by decide) (by decide) (by decide) rest)
    rw [stored]
    refine ((opening _).append (phrase.append closing)).imp ?_
    rintro _ ⟨_, _, rfl, ⟨opening, rfl, square⟩, tokens, _, rfl, given, closing, rfl, kind⟩
    exact .brackets square given kind

/-- Names are stored one by one, with blanks between them. -/
theorem encode_labelsText (first : Label) (more : List Label) :
    Utf8.encode (labelsText (first :: more)) =
      Utf8.encode first.text ++ more.flatMap fun label => byte ' ' :: Utf8.encode label.text := by
  rw [labelsText, List.map_cons, Utf8.encode_intercalate, List.flatMap_map]
  rfl

/-- Names with blanks between them are printed one by one. -/
theorem prints_labels {α : Type} {label : α → Label} {Phrase : α → List Token → Prop} {items : List α}
    (some : items ≠ []) (each : ∀ item ∈ items, ∀ rest, Apart rest →
      Prints (Phrase item) (Utf8.encode (label item).text) rest) {rest : Bytes} (apart : Apart rest) :
    Prints (Sequence Phrase items) (Utf8.encode (labelsText (items.map label))) rest := by
  obtain ⟨first, others, rfl⟩ := List.exists_cons_of_ne_nil some
  -- Every name but the first has a blank in front, which leaves the one before alone.
  have behind : ∀ item ∈ others, ∀ rest, Apart rest →
      Prints (Phrase item) (byte ' ' :: Utf8.encode (label item).text) rest :=
    fun item member rest apart => (each item (.tail _ member) rest apart).blank rfl
  obtain ⟨more, apart⟩ := Sequence.prints Apart (fun _ _ _ => apart_blank _) behind apart
  rw [List.map_cons, encode_labelsText, List.flatMap_map]
  refine ((each first (List.mem_cons_self ..) _ apart).append more).imp ?_
  rintro _ ⟨front, back, rfl, given, written⟩
  exact .cons given written

/-- A type's name is printed as a token. -/
theorem TypeName.prints {name : String} (spelled : Category.type.Names name) {rest : Bytes}
    (apart : Apart rest) :
    Prints (TypeName name) (Utf8.encode (⟨name, .type⟩ : Label).text) rest := by
  -- The label of that category is printed as one token, whose text is the name.
  refine (@Label.prints ⟨name, .type⟩ spelled rest apart).imp ?_
  rintro _ ⟨token, rfl, kind, rfl⟩
  exact .token kind

/-- A type list is printed as its names, and dots behind them if it is variadic. -/
theorem TypeList.prints {names : List String} (some : names ≠ [])
    (spelled : ∀ name ∈ names, Category.type.Names name) (variadic : Bool) {rest : Bytes}
    (apart : Apart rest) :
    Prints (TypeList names variadic) (Utf8.encode (typeListText names variadic)) rest := by
  have each := fun name member (rest : Bytes) (apart : Apart rest) =>
    TypeName.prints (spelled name member) apart
  unfold typeListText
  cases variadic with
  | false =>
    rw [if_neg (by simp), String.append_empty]
    exact (prints_labels some each apart).imp fun _ written => .once some written
  | true =>
    -- The dots end the last name just as a blank would.
    have dots : Prints (Mark .ellipsis) [byte '.', byte '.', byte '.'] rest :=
      .token (.one rfl rfl) (by simp [IsPlain]) fun token kind _ => ⟨token, rfl, kind⟩
    rw [if_pos rfl, Utf8.encode_append]
    refine ((prints_labels some each (apart_dots (byte '.' :: rest))).append dots).imp ?_
    rintro _ ⟨tokens, _, rfl, written, dots, rfl, kind⟩
    exact .variadic some written kind

/-- Labels of an option are printed with a blank between them. -/
theorem Labels.prints {labels : List Label} {tokens : List Token} (written : Labels labels tokens)
    (spelled : Token.AllSpelled tokens) {rest : Bytes} (apart : Apart rest) :
    Prints (Labels labels) (Utf8.encode (labelsText labels)) rest := by
  have names := fun label member => (written.spelled spelled label member).1
  cases written with
  | @short token kind =>
    refine (Label.prints (names _ (List.mem_cons_self ..)) apart).imp ?_
    rintro _ ⟨other, rfl, kind, text⟩
    have text : other.text = token.text := text
    exact text ▸ .short kind
  | @long token kind =>
    refine (Label.prints (names _ (List.mem_cons_self ..)) apart).imp ?_
    rintro _ ⟨other, rfl, kind, text⟩
    have text : other.text = token.text := text
    exact text ▸ .long kind
  -- A blank stands between the labels.
  | @both short long kind kind' =>
    have second := (Label.prints (names ⟨long.text, .longlabel⟩ (by simp)) apart).blank
      (show isBlank (byte ' ') = true from rfl)
    have first := Label.prints (names ⟨short.text, .shortlabel⟩ (by simp)) (apart_blank
      (Utf8.encode (⟨long.text, .longlabel⟩ : Label).text ++ rest))
    rw [encode_labelsText, List.flatMap_singleton]
    refine (first.append second).imp ?_
    rintro _ ⟨_, _, rfl, ⟨first, rfl, kind, text⟩, second, rfl, kind', text'⟩
    have text : first.text = short.text := text
    have text' : second.text = long.text := text'
    exact text ▸ text' ▸ .both kind kind'

/-- Types behind a blank are printed as a type list, in brackets if the value is optional. -/
theorem prints_typesPart {names : List String} {variadic : Bool} {tokens : List Token}
    (written : TypeList names variadic tokens) (spelled : Token.AllSpelled tokens) (optional : Bool)
    {rest : Bytes} (apart : Apart rest) :
    Prints (Bracketed (TypeList names variadic) optional)
        (Utf8.encode (typesPartText (some names) optional variadic)) rest ∧
      Apart (Utf8.encode (typesPartText (some names) optional variadic) ++ rest) := by
  have some : names ≠ [] := by
    cases written <;> assumption
  -- The blank stands outside the brackets.
  have stored : Utf8.encode (typesPartText (.some names) optional variadic) =
      byte ' ' :: Utf8.encode (bracketedText optional (typeListText names variadic)) := by
    rw [typesPartText, Utf8.encode_append]
    rfl
  rw [stored]
  refine ⟨(Bracketed.prints (fun rest apart => ?_) apart optional).blank rfl, apart_blank _⟩
  exact TypeList.prints some (written.spelled spelled) variadic apart

/-- A heading is printed as its names and types. -/
theorem Header.prints {heading : Heading} {tokens : List Token} (written : Header heading tokens)
    (spelled : Token.AllSpelled tokens) {rest : Bytes} (apart : Apart rest) :
    Prints (Header heading) (Utf8.encode heading.text) rest := by
  have part : ∀ {inner : List Token}, inner ⊆ tokens → Token.AllSpelled inner :=
    fun inside token member => spelled token (inside member)
  have names := (written.spelled spelled).names
  cases written with
  -- The heading of the schema is a single word.
  | @metadata token kind text =>
    refine (@Label.prints ⟨"meta", .metadata⟩ rfl rest apart).imp ?_
    rintro _ ⟨token, rfl, kind, text⟩
    exact .metadata kind text
  | @typeDefinition name tokens given =>
    exact (TypeName.prints (names ⟨name, .type⟩ (by simp)) apart).imp fun _ => .typeDefinition
  -- A word in brackets or without them, and the types behind it.
  | @positional optional typesOptional variadic name types tokens list word written =>
    obtain ⟨inner, written, inside⟩ := written.inner
    obtain ⟨printed, apart'⟩ := prints_typesPart written
      (part (List.Subset.trans inside (List.subset_append_right _ _))) false apart
    have named : ∀ rest, Apart rest →
        Prints (Word name) (Utf8.encode (labelsText [⟨name, .identifier⟩])) rest := by
      intro rest apart
      have given := names ⟨name, .identifier⟩ (List.mem_singleton_self _)
      refine (Label.prints given apart).imp ?_
      rintro _ ⟨token, rfl, kind, text⟩
      have text : token.text = name := text
      exact text ▸ .token kind (text ▸ given.2)
    -- The brackets close around the word alone.
    have words := Bracketed.prints named apart' (optional || typesOptional)
    show Prints _ (Utf8.encode (bracketedText (optional || typesOptional)
      (labelsText [⟨name, .identifier⟩]) ++ typesPartText (some types) false variadic)) rest
    rw [Utf8.encode_append]
    refine (words.append printed).imp ?_
    rintro _ ⟨front, back, rfl, word, list⟩
    have whole := Header.positional word list
    rwa [Bool.or_false] at whole
  -- A flag is an option that is printed without types.
  | @flag optional labels tokens written =>
    obtain ⟨inner, written, inside⟩ := written.inner
    have stored : Utf8.encode (Heading.text ⟨.option optional false false, labels, none⟩) =
        Utf8.encode (bracketedText optional (labelsText labels)) := by
      rw [Heading.text]
      simp [typesPartText]
    rw [stored]
    exact (Bracketed.prints (fun rest apart => written.prints (part inside) apart) apart
      optional).imp fun _ => .flag
  -- An option is printed as its labels, with the types behind them.
  | @option optional valueOptional variadic labels types tokens list named written =>
    obtain ⟨inner, written, inside⟩ := written.inner
    obtain ⟨outer, named, outside⟩ := named.inner
    obtain ⟨printed, apart'⟩ := prints_typesPart written
      (part (List.Subset.trans inside (List.subset_append_right _ _))) valueOptional apart
    show Prints _ (Utf8.encode (bracketedText optional (labelsText labels) ++
      typesPartText (some types) valueOptional variadic)) rest
    rw [Utf8.encode_append]
    have below := part (List.Subset.trans outside (List.subset_append_left _ _))
    refine ((Bracketed.prints (fun rest apart => named.prints below apart) apart'
      optional).append printed).imp ?_
    rintro _ ⟨front, back, rfl, labels, list⟩
    exact .option labels list

/-- A definition is printed as its heading and its body. -/
theorem Defines.prints {given : Definition} {tokens : List Token} (written : Defines given tokens)
    (spelled : Token.AllSpelled tokens) (rest : Bytes) :
    Prints (Defines given) (Utf8.encode (Item.definition given).text) rest := by
  cases written with
  | @definition heading body header tokens written enclosed =>
    have inner : ∀ {list : List Token}, list ⊆ header ++ tokens → Token.AllSpelled list :=
      fun sub token member => spelled token (sub member)
    have statements := enclosed.spelled (inner (List.subset_append_right _ _))
    have printed := Body.prints (fun statement member =>
      ⟨statements statement member, enclosed.values_ne_nil member⟩) rest
    show Prints _ (Utf8.encode (heading.text ++ bodyText body)) rest
    rw [Utf8.encode_append]
    -- The body starts with a blank, so it leaves the heading alone.
    refine ((written.prints (inner (List.subset_append_left _ _))
      (apart_bodyText body rest)).append printed).imp ?_
    rintro _ ⟨_, _, rfl, written, enclosed⟩
    exact .definition written enclosed

/-- An item is printed in front of whatever follows. -/
theorem FileItem.prints {item : Item} {tokens : List Token} (written : FileItem item tokens)
    (spelled : Token.AllSpelled tokens) (rest : Bytes) :
    Prints (FileItem item) (Utf8.encode item.text) rest := by
  cases written with
  | @suppress kind tokens given =>
    show Prints _ (Utf8.encode ("@suppress " ++ kind.name ++ "\n")) rest
    rw [Utf8.encode_append]
    -- The line end behind the name keeps it apart from what follows.
    have ended : Apart (byte '\n' :: rest) :=
      apart_cons (by decide) (by decide) (by decide) rest
    exact ((Suppression.prints kind ended).imp fun _ => .suppress).trail rfl
  | definition given => exact (given.prints spelled rest).imp fun _ => .definition

/-- A file is printed as its items with blank lines between them, which are read as the file. -/
theorem File.prints {items : List Item} {tokens : List Token} (written : File items tokens)
    (spelled : Token.AllSpelled tokens) : Prints (File items) (Utf8.encode (fileText items)) [] := by
  cases written with
  | items some written =>
    have each : ∀ item ∈ items, ∀ rest, True → Prints (FileItem item) (Utf8.encode item.text) rest := by
      intro item member rest _
      obtain ⟨part, given, inside⟩ := written.exists_of_mem member
      exact given.prints (fun token member => spelled token (inside member)) rest
    obtain ⟨first, others, rfl⟩ := List.exists_cons_of_ne_nil some
    -- Between items stands a line end, which belongs to the item behind it.
    have behind : ∀ item ∈ others, ∀ rest, True →
        Prints (FileItem item) (byte '\n' :: Utf8.encode item.text) rest :=
      fun item member rest _ => (each item (.tail _ member) rest trivial).blank rfl
    obtain ⟨more, -⟩ := @Sequence.prints _ _ _ (fun _ => True) (fun _ _ _ => trivial) _ behind []
      trivial
    rw [fileText, List.map_cons, Utf8.encode_intercalate, List.flatMap_map]
    refine ((each first (List.mem_cons_self ..) _ trivial).append more).imp ?_
    rintro _ ⟨_, _, rfl, first, others⟩
    exact .items some (.cons first others)

end Grammar

end ArgSchema
