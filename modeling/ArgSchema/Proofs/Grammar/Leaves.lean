import ArgSchema.Proofs.Grammar.Derivation

/-! Leaves: what the tokens of a file hold is what the tree of the file holds, in the same order. -/

namespace ArgSchema

namespace Outline

mutual

/-- The contents of the nodes that never have children, in document order. -/
def leaves : Outline → List NodeKind
  | .node kind below => if kind.type.isLeaf then [kind] else leavesAll below

/-- The leaves of outlines, in order. -/
def leavesAll : List Outline → List NodeKind
  | [] => []
  | outline :: rest => outline.leaves ++ leavesAll rest

end

/-- The leaves of two lists are those of the first and those of the second. -/
theorem leavesAll_append (first second : List Outline) :
    leavesAll (first ++ second) = leavesAll first ++ leavesAll second := by
  induction first with
  | nil => rfl
  | cons outline rest ih => simp [leavesAll, ih]

/-- A node that can have children holds what its children hold. -/
theorem leaves_node {kind : NodeKind} (inner : kind.type.isLeaf = false) (below : List Outline) :
    (node kind below).leaves = leavesAll below := by
  simp [leaves, inner]

/-- A node that never has children holds itself. -/
theorem leaves_leaf {kind : NodeKind} (outer : kind.type.isLeaf = true) :
    (leaf kind).leaves = [kind] := by
  simp [leaf, leaves, outer]

end Outline

/-- A name is one leaf. -/
@[simp] theorem Label.leaves_outline (label : Label) :
    label.outline.leaves = [.identifier label.name label.category] := Outline.leaves_leaf rfl

/-- What tokens hold: every name and value, each suppression once, and not the word that heads a
block about the schema itself. -/
def Token.leaves : List Token → List NodeKind
  | [] => []
  | [token] => token.contents?.toList
  | first :: second :: rest =>
    -- A suppression is one leaf of two tokens.
    if first.isSuppress then
      (WarningClass.ofName? second.text).toList.map .suppress ++ leaves rest
    -- The word in front of a body names the block of the schema, and is none.
    else if first.isWord "meta" && second.kind = .openCurly then leaves (second :: rest)
    else first.contents?.toList ++ leaves (second :: rest)

/-- A token that neither suppresses nor heads a block holds what it stands for. -/
theorem Token.leaves_cons {first : Token} {rest : List Token} (plain : first.isSuppress = false)
    (named : first.isWord "meta" = true → ∀ second ∈ rest.head?, second.kind ≠ .openCurly) :
    leaves (first :: rest) = first.leaf?.toList ++ leaves rest := by
  cases rest with
  | nil => simp [leaves, contents?_eq_leaf?]
  | cons second rest =>
    rw [leaves, plain, contents?_eq_leaf?]
    -- Only the word for the schema looks at what comes behind it.
    by_cases word : first.isWord "meta" = true
    · simp [word, named word second (by simp)]
    · simp [word]

/-- A token of some kind other than a modifier and a word holds what it stands for. -/
theorem Token.leaves_cons_of_kind {first : Token} (rest : List Token)
    (modifier : first.kind ≠ .modifier) (word : first.kind ≠ .identifier) :
    leaves (first :: rest) = first.leaf?.toList ++ leaves rest := by
  refine leaves_cons (by simp [isSuppress, modifier]) fun named => ?_
  simp [isWord, word] at named

namespace Grammar

/-- Phrases hold what their tokens hold, whatever comes behind them. -/
def Keeps {α : Type} (Written : α → List Token → Prop) (outline : α → Outline) : Prop :=
  ∀ {item tokens}, Written item tokens → ∀ rest,
    Token.leaves (tokens ++ rest) = (outline item).leaves ++ Token.leaves rest

/-- Repetitions hold what their tokens hold. -/
theorem Sequence.leaves {α : Type} {Written : α → List Token → Prop} {outline : α → Outline}
    {items : List α} {tokens : List Token} (written : Sequence Written items tokens)
    (keeps : Keeps Written outline) (rest : List Token) :
    Token.leaves (tokens ++ rest) =
      Outline.leavesAll (items.map outline) ++ Token.leaves rest := by
  induction written generalizing rest with
  | none => rfl
  | more _ last ih =>
    -- The last phrase is the one in front of the rest.
    rw [List.append_assoc, ih, keeps last, List.map_append, Outline.leavesAll_append]
    simp [Outline.leavesAll]

/-- A suppression is one leaf. -/
theorem keeps_suppression : Keeps Suppression fun kind => .leaf (.suppress kind) := by
  -- The modifier and the class together are one leaf.
  intro kind tokens written rest
  cases written with
  | pair suppress word known =>
    rw [Outline.leaves_leaf rfl]
    simp [Token.leaves, suppress, known]

/-- A value is one leaf, and it is no bracket. -/
theorem Value.cases {leaf : NodeKind} {tokens : List Token} (written : Value leaf tokens) :
    ∃ token, tokens = [token] ∧ token.leaf? = some leaf ∧ leaf.type.isLeaf = true ∧
      token.kind ≠ .modifier ∧ token.kind ≠ .identifier ∧ token.kind ≠ .openCurly := by
  cases written with
  -- The kinds of values are none of those that tokens look ahead for.
  | @token token _ given =>
    obtain ⟨value, named⟩ := Token.value?_eq_some_iff.mp given
    refine ⟨token, rfl, named, ?_⟩
    unfold TokenKind.isValue at value
    unfold Token.leaf? at named
    split at value <;> simp_all <;> subst named <;> rfl

/-- A value is one leaf. -/
theorem keeps_value : Keeps Value Outline.leaf := by
  -- A value's token is neither a modifier nor part of a suppression.
  intro leaf tokens written rest
  obtain ⟨token, rfl, named, outer, modifier, word, _⟩ := written.cases
  rw [List.singleton_append, Token.leaves_cons_of_kind rest modifier word, named,
    Outline.leaves_leaf outer]
  rfl

/-- A type's name is one leaf. -/
theorem keeps_typeName : Keeps TypeName fun name => (⟨name, .type⟩ : Label).outline := by
  -- A type is a leaf with its name.
  intro name tokens written rest
  cases written with
  | @token token kind =>
    rw [List.singleton_append, Token.leaves_cons_of_kind rest (by simp [kind]) (by simp [kind]),
      Label.leaves_outline]
    simp [Token.leaf?, kind]

/-- Semicolons hold nothing. -/
theorem leaves_strays {strays : List Token} (dropped : Strays strays) (rest : List Token) :
    Token.leaves (strays ++ rest) = Token.leaves rest := by
  induction strays with
  | nil => rfl
  | cons token strays ih =>
    -- A semicolon stands for nothing, wherever it is.
    have kind := dropped token (by simp)
    rw [List.cons_append, Token.leaves_cons_of_kind _ (by simp [kind]) (by simp [kind]),
      ih fun other member => dropped other (by simp [member])]
    simp [Token.leaf?, kind]

/-- Punctuation holds nothing. -/
theorem leaves_mark {token : Token} (rest : List Token)
    (mark : token.kind ∈ [.openSquare, .closeSquare, .openCurly, .closeCurly, .semicolon,
      .ellipsis]) : Token.leaves (token :: rest) = Token.leaves rest := by
  -- Marks have no leaf, and no word behind them depends on them.
  simp only [List.mem_cons, List.not_mem_nil, or_false] at mark
  rw [Token.leaves_cons_of_kind rest]
  · rcases mark with kind | kind | kind | kind | kind | kind <;> simp [Token.leaf?, kind]
  · rcases mark with kind | kind | kind | kind | kind | kind <;> simp [kind]
  · rcases mark with kind | kind | kind | kind | kind | kind <;> simp [kind]

/-- A list of values begins with a token that is no bracket. -/
theorem Sequence.head_value {values : List NodeKind} {tokens : List Token}
    (written : Sequence Value values tokens) (some : values ≠ []) :
    ∃ first rest, tokens = first :: rest ∧ first.kind ≠ .openCurly := by
  induction written with
  | none => exact absurd rfl some
  -- The first of several values is the first of those in front of the last.
  | @more values value tokens last before added ih =>
    cases before with
    | none =>
      obtain ⟨token, rfl, _, _, _, _, other⟩ := added.cases
      exact ⟨token, [], rfl, other⟩
    | more before given =>
      obtain ⟨first, rest, same, other⟩ := ih (by simp)
      exact ⟨first, rest ++ last, by simp [same], other⟩

/-- A token that can head a property stands for the property's name. -/
theorem leaf?_of_keyword? {word : Token} {keyword : Label} (named : word.keyword? = some keyword) :
    word.isSuppress = false ∧
      word.leaf? = some (.identifier keyword.name keyword.category) := by
  unfold Token.keyword? Token.isKeyword at named
  split at named
  · next able =>
    -- A keyword is a word or a property, and each stands for its name.
    have kind : word.kind = .identifier ∨ word.kind = .property := by simpa using able
    unfold Token.label? Token.category? at named
    rcases kind with kind | kind <;> simp only [kind, Option.map_some, Option.some.injEq] at named <;>
      subst named <;> simp [Token.isSuppress, Token.leaf?, kind]
  · cases named

/-- A property holds its suppressions, its keyword and its values. -/
theorem keeps_config : Keeps Config Statement.outline := by
  intro statement tokens written rest
  cases written with
  | @statement kinds keyword values marks word literals closing strays marked named some written
      close dropped =>
    obtain ⟨plain, leaf⟩ := leaf?_of_keyword? named
    obtain ⟨first, others, rfl, other⟩ := written.head_value some
    have shape : marks ++ word :: (first :: others) ++ closing :: strays ++ rest =
        marks ++ (word :: (first :: others ++ (closing :: (strays ++ rest)))) := by simp
    -- A value stands behind the keyword, so the keyword heads no block.
    have cons : Token.leaves (word :: (first :: others ++ (closing :: (strays ++ rest)))) =
        word.leaf?.toList ++ Token.leaves (first :: others ++ (closing :: (strays ++ rest))) := by
      refine Token.leaves_cons plain fun _ second member => ?_
      obtain rfl : first = second := by simpa using member
      exact other
    rw [shape, marked.leaves keeps_suppression, cons, leaf, written.leaves keeps_value,
      leaves_mark _ (by simp [close]), leaves_strays dropped, Statement.outline,
      Outline.leaves_node rfl, Outline.leavesAll_append]
    simp [Outline.leavesAll, valuesOutline, @Outline.leaves_node .values rfl]

/-- A body holds its properties. -/
theorem keeps_body : Keeps Body configsOutline := by
  -- Brackets and stray semicolons have no leaves.
  intro statements tokens written rest
  cases written with
  | @braces opening strays tokens closing curly dropped written close =>
    have shape : opening :: strays ++ tokens ++ [closing] ++ rest =
        opening :: (strays ++ (tokens ++ (closing :: rest))) := by simp
    rw [shape, leaves_mark _ (by simp [curly]), leaves_strays dropped, written.leaves keeps_config,
      leaves_mark _ (by simp [close]), configsOutline, Outline.leaves_node rfl]

/-- A word holds its name. -/
theorem leaves_word {name : String} {tokens : List Token} (written : Word name tokens)
    (rest : List Token) :
    Token.leaves (tokens ++ rest) =
      Outline.leavesAll ([⟨name, .identifier⟩].map Label.outline) ++ Token.leaves rest := by
  cases written with
  | @token token kind text =>
    -- The word is not the one for the schema, so it need not look ahead.
    have other : token.isWord "meta" = false := by simp [Token.isWord, text]
    rw [List.singleton_append, Token.leaves_cons (by simp [Token.isSuppress, kind])
      (fun named => by simp [other] at named)]
    simp [Token.leaf?, kind, other, Outline.leavesAll]

/-- Labels hold their names. -/
theorem leaves_labels {labels : List Label} {tokens : List Token} (written : Labels labels tokens)
    (rest : List Token) :
    Token.leaves (tokens ++ rest) =
      Outline.leavesAll (labels.map Label.outline) ++ Token.leaves rest := by
  cases written with
  -- Labels are neither words nor modifiers, so each holds its own name.
  | @short token kind | @long token kind =>
    rw [List.singleton_append, Token.leaves_cons_of_kind rest (by simp [kind]) (by simp [kind])]
    simp [Token.leaf?, kind, Outline.leavesAll]
  | @both short long kind kind' =>
    rw [List.cons_append, Token.leaves_cons_of_kind _ (by simp [kind]) (by simp [kind]),
      List.singleton_append, Token.leaves_cons_of_kind rest (by simp [kind']) (by simp [kind'])]
    simp [Token.leaf?, kind, kind', Outline.leavesAll]

/-- A type list holds its names. -/
theorem leaves_typeList {names : List String} {variadic : Bool} {tokens : List Token}
    (written : TypeList names variadic tokens) (rest : List Token) :
    Token.leaves (tokens ++ rest) =
      Outline.leavesAll [typesOutline names] ++ Token.leaves rest := by
  have held : Outline.leavesAll [typesOutline names] =
      Outline.leavesAll (names.map fun name => (⟨name, .type⟩ : Label).outline) := by
    simp [Outline.leavesAll, typesOutline, @Outline.leaves_node (.types []) rfl]
  -- The dots are no leaf, so both forms of the list hold the same.
  cases written with
  | once _ written => rw [held, written.leaves keeps_typeName]
  | variadic _ written kind =>
    rw [held, List.append_assoc, written.leaves keeps_typeName, List.singleton_append,
      leaves_mark rest (by simp [kind])]

/-- Square brackets hold what is between them. -/
theorem Bracketed.leaves {Written : List Token → Prop} {optional : Bool} {tokens : List Token}
    {held : List NodeKind} (written : Bracketed Written optional tokens)
    (inner : ∀ {tokens}, Written tokens → ∀ rest,
      Token.leaves (tokens ++ rest) = held ++ Token.leaves rest) (rest : List Token) :
    Token.leaves (tokens ++ rest) = held ++ Token.leaves rest := by
  cases written with
  -- The brackets hold nothing.
  | bare written => exact inner written rest
  | brackets opened written close =>
    rw [List.append_assoc, List.cons_append, leaves_mark _ (by simp [opened]), inner written,
      List.singleton_append, leaves_mark rest (by simp [close])]

/-- A header in front of a body holds its names and its types. -/
theorem Header.leaves {heading : Heading} {tokens : List Token} (written : Header heading tokens)
    {opening : Token} (curly : opening.kind = .openCurly) (rest : List Token) :
    Token.leaves (tokens ++ opening :: rest) =
      Outline.leavesAll heading.outlines ++ Token.leaves (opening :: rest) := by
  cases written with
  -- The word for the schema is no leaf, as it stands in front of a body.
  | @metadata token kind text =>
    simp [Token.leaves, Token.isSuppress, Token.isWord, kind, text, curly, Heading.outlines,
      Outline.leavesAll]
  | typeDefinition name =>
    rw [keeps_typeName name]
    simp [Heading.outlines, Outline.leavesAll]
  | positional name list =>
    rw [List.append_assoc, name.leaves leaves_word, list.leaves leaves_typeList]
    simp [Heading.outlines, Outline.leavesAll]
  | flag names =>
    rw [names.leaves leaves_labels]
    simp [Heading.outlines]
  | option names list =>
    rw [List.append_assoc, names.leaves leaves_labels, list.leaves leaves_typeList]
    simp [Heading.outlines, Outline.leavesAll_append]

/-- An item holds its names and values. -/
theorem keeps_item : Keeps FileItem Item.outline := by
  intro item tokens written rest
  cases written with
  | suppress pair => exact keeps_suppression pair rest
  | definition defines =>
    cases defines with
    | @definition heading body header tokens written enclosed =>
      have inner : heading.form.kind.type.isLeaf = false := by
        cases heading.form <;> rfl
      -- The body begins with its bracket, which the header may look at.
      obtain ⟨opening, others, same, curly⟩ : ∃ opening others, tokens = opening :: others ∧
          opening.kind = .openCurly := by
        cases enclosed with
        | braces curly => exact ⟨_, _, rfl, curly⟩
      have held := keeps_body enclosed rest
      rw [same, List.cons_append] at held
      rw [same, List.append_assoc, List.cons_append, written.leaves curly, held, Item.outline,
        Definition.outline, Outline.leaves_node inner, Outline.leavesAll_append]
      simp [Outline.leavesAll]

/-- The leaves of a file's tree are what the file's tokens hold. -/
theorem File.leaves_eq {items : List Item} {tokens : List Token} (written : File items tokens) :
    (fileOutline items).leaves = Token.leaves tokens := by
  -- The items' leaves follow each other, and nothing stands behind them.
  cases written with
  | items _ written =>
    have held := written.leaves keeps_item []
    simp only [List.append_nil] at held
    rw [held, fileOutline, Outline.leaves_node rfl]
    simp [Token.leaves]

end Grammar

end ArgSchema
