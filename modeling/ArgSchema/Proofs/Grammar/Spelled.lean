import ArgSchema.Proofs.Grammar.Derivation
import ArgSchema.Proofs.Lexer.Spelling

/-! Syntax that tokens of a text spell: its names can be written, each in its category. -/

namespace ArgSchema

/-- Tokens that were read from texts. -/
def Token.AllSpelled (tokens : List Token) : Prop := ∀ token ∈ tokens, token.Spelled

/-- A name that can be written in its category. -/
def Label.Spelled (label : Label) : Prop := label.category.Names label.name

/-- A leaf that stands for a value which can be written. -/
def NodeKind.Written (leaf : NodeKind) : Prop :=
  ∃ token : Token, token.Spelled ∧ token.value? = some leaf

/-- The categories of the names of a definition. -/
def Form.categories : Form → List Category
  | .metadata => []
  | .typeDefinition => [.type]
  | .positional .. => [.identifier]
  | .option .. => [.shortlabel, .longlabel]

/-- A heading whose names can be written. -/
structure Heading.Spelled (heading : Heading) : Prop where
  /-- Each name can be written. -/
  names : ∀ label ∈ heading.names, label.Spelled
  /-- Each name has a category of the form. -/
  categories : ∀ label ∈ heading.names, label.category ∈ heading.form.categories
  /-- Each type can be written. -/
  types : ∀ list ∈ heading.types?, ∀ name ∈ list, Category.type.Names name

/-- A property whose names and values can be written. -/
structure Statement.Spelled (statement : Statement) : Prop where
  /-- The keyword can be written. -/
  keyword : statement.keyword.Spelled
  /-- The keyword is a word or stands behind a dot. -/
  category : statement.keyword.category ∈ [Category.identifier, .metadata, .property]
  /-- Each value can be written. -/
  values : ∀ value ∈ statement.values, value.Written

/-- A definition whose names and values can be written. -/
structure Definition.Spelled (given : Definition) : Prop where
  /-- The heading can be written. -/
  heading : given.heading.Spelled
  /-- Each property can be written. -/
  body : ∀ statement ∈ given.body, statement.Spelled

namespace Grammar

/-- An item of a sequence is spelled by some of the tokens. -/
theorem Sequence.exists_of_mem {α : Type} {Phrase : α → List Token → Prop} {items : List α}
    {tokens : List Token} (written : Sequence Phrase items tokens) {item : α}
    (member : item ∈ items) : ∃ part, Phrase item part ∧ part ⊆ tokens := by
  induction written with
  | none => cases member
  | more rest last ih =>
    -- A member is in the front part or is the last item.
    rcases List.mem_append.mp member with member | member
    · obtain ⟨part, given, inside⟩ := ih member
      exact ⟨part, given, List.Subset.trans inside (List.subset_append_left _ _)⟩
    · rw [List.mem_singleton.mp member]
      exact ⟨_, last, List.subset_append_right _ _⟩

/-- What is in brackets is spelled by some of the tokens. -/
theorem Bracketed.inner {Phrase : List Token → Prop} {optional : Bool} {tokens : List Token}
    (written : Bracketed Phrase optional tokens) : ∃ part, Phrase part ∧ part ⊆ tokens := by
  -- Without brackets the part is everything, with them what stands in between.
  cases written with
  | bare given => exact ⟨tokens, given, List.Subset.refl _⟩
  | brackets _ given _ => exact ⟨_, given, fun token member => by simp [member]⟩

variable {tokens : List Token}

/-- A name that a token is can be written in its category. -/
theorem spelled_of_label? {token : Token} {label : Label} (spelled : token.Spelled)
    (named : token.label? = some label) : label.Spelled := by
  unfold Token.label? Token.category? at named
  unfold Token.Spelled at spelled
  -- Only a bare word has two categories; for all other kinds the texts are the same.
  cases kind : token.kind <;> simp only [kind, Option.map_some, Option.map_none] at named spelled <;>
    cases named
  case identifier =>
    unfold Label.Spelled
    by_cases schema : token.text = "meta"
    · simp [Token.isWord, kind, schema, Category.Names]
    · have word : IsWord token.text := spelled
      simpa [Token.isWord, kind, schema, Category.Names] using word
  all_goals exact spelled

/-- A property can be written if its tokens were read from texts. -/
theorem Config.spelled {statement : Statement} (written : Config statement tokens)
    (spelled : Token.AllSpelled tokens) : statement.Spelled := by
  cases written with
  | @statement suppressions keyword values marks word literals closing strays _ named _ given =>
    -- The keyword is the label of its token.
    have label : word.isKeyword = true ∧ word.label? = some keyword := by
      unfold Token.keyword? at named
      split at named
      · exact ⟨‹_›, named⟩
      · cases named
    refine ⟨spelled_of_label? (spelled word (by simp)) label.2, ?_, fun value member => ?_⟩
    · obtain ⟨able, named⟩ := label
      have kinds : word.kind = .identifier ∨ word.kind = .property := by
        simpa [Token.isKeyword] using able
      unfold Token.label? Token.category? at named
      -- A word or a name with a point, which are the categories of keywords.
      rcases kinds with kind | kind <;> simp only [kind, Option.map_some] at named <;> cases named
      · simp only
        split <;> simp
      · simp
    · obtain ⟨part, one, inside⟩ := given.exists_of_mem member
      cases one with
      | @token token _ value =>
        have member : token ∈ literals := inside (by simp)
        exact ⟨token, spelled token (by simp [member]), value⟩

/-- Properties can be written if their tokens were read from texts. -/
theorem Body.spelled {body : List Statement} (written : Body body tokens)
    (spelled : Token.AllSpelled tokens) : ∀ statement ∈ body, statement.Spelled := by
  -- A property's tokens are among those of its body.
  cases written with
  | braces _ _ given _ =>
    intro statement member
    obtain ⟨part, one, inside⟩ := given.exists_of_mem member
    exact one.spelled fun token member => spelled token (by simp [inside member])

/-- Types in a list can be written if their tokens were read from texts. -/
theorem TypeList.spelled {names : List String} {variadic : Bool}
    (written : TypeList names variadic tokens) (spelled : Token.AllSpelled tokens) :
    ∀ name ∈ names, Category.type.Names name := by
  -- Each name is a token of its own, which is among the tokens of the list.
  have each : ∀ {tokens}, Token.AllSpelled tokens → Sequence TypeName names tokens →
      ∀ name ∈ names, Category.type.Names name := by
    intro tokens spelled given name member
    obtain ⟨part, one, inside⟩ := given.exists_of_mem member
    cases one with
    | @token token kind =>
      have text := spelled token (inside (by simp))
      unfold Token.Spelled at text
      rw [kind] at text
      exact text
  cases written with
  | once _ given => exact each spelled given
  | variadic _ given _ => exact each (fun token member => spelled token (by simp [member])) given

/-- Labels can be written if their tokens were read from texts, and have the marks of labels. -/
theorem Labels.spelled {labels : List Label} (written : Labels labels tokens)
    (spelled : Token.AllSpelled tokens) :
    ∀ label ∈ labels, label.Spelled ∧ label.category ∈ [Category.shortlabel, .longlabel] := by
  -- A label keeps what its token says of the name.
  have named : ∀ token ∈ tokens, ∀ {label}, token.label? = some label → label.Spelled :=
    fun token member _ same => spelled_of_label? (spelled token member) same
  cases written with
  | @short token kind =>
    simpa using named token (by simp) (by simp [Token.label?, Token.category?, kind])
  | @long token kind =>
    simpa using named token (by simp) (by simp [Token.label?, Token.category?, kind])
  | @both short long kind kind' =>
    have first := named short (by simp) (show short.label? = some ⟨short.text, .shortlabel⟩ by
      simp [Token.label?, Token.category?, kind])
    have second := named long (by simp) (show long.label? = some ⟨long.text, .longlabel⟩ by
      simp [Token.label?, Token.category?, kind'])
    simpa using And.intro first second

/-- A heading can be written if its tokens were read from texts. -/
theorem Header.spelled {heading : Heading} (written : Header heading tokens)
    (spelled : Token.AllSpelled tokens) : heading.Spelled := by
  have part : ∀ {inner : List Token}, inner ⊆ tokens → Token.AllSpelled inner :=
    fun inside token member => spelled token (inside member)
  -- The names of a heading are the texts of its tokens, which were read as such.
  cases written with
  | metadata => exact ⟨by simp, by simp, by simp⟩
  | typeDefinition name =>
    cases name with
    | @token token kind =>
      have text := spelled token (by simp)
      unfold Token.Spelled at text
      rw [kind] at text
      have name : Category.type.Names token.text := text
      exact ⟨by simpa [Label.Spelled] using name, by simp [Form.categories], by simp⟩
  -- An argument has a word for its name, and the names of its types.
  | positional word list =>
    obtain ⟨inner, word, inside⟩ := word.inner
    obtain ⟨names, list, below⟩ := list.inner
    have types := list.spelled (part (List.Subset.trans below (List.subset_append_right _ _)))
    cases word with
    | @token token kind other =>
      have text := spelled token (List.mem_append_left _ (inside (by simp)))
      unfold Token.Spelled at text
      rw [kind] at text
      have name : IsWord token.text := text
      refine ⟨?_, by simp [Form.categories], by simpa using types⟩
      simpa [Label.Spelled, Category.Names, other] using name
  -- A flag has labels only, and an option has both.
  | flag labels =>
    obtain ⟨inner, labels, inside⟩ := labels.inner
    have both := labels.spelled (part inside)
    exact ⟨fun label member => (both label member).1, fun label member => (both label member).2,
      by simp⟩
  | option labels list =>
    obtain ⟨inner, labels, inside⟩ := labels.inner
    obtain ⟨names, list, below⟩ := list.inner
    have both := labels.spelled (part (List.Subset.trans inside (List.subset_append_left _ _)))
    have types := list.spelled (part (List.Subset.trans below (List.subset_append_right _ _)))
    exact ⟨fun label member => (both label member).1, fun label member => (both label member).2,
      by simpa using types⟩

/-- The definitions of a file can be written if its tokens were read from texts. -/
theorem File.spelled {items : List Item} (written : File items tokens)
    (spelled : Token.AllSpelled tokens) {given : Definition} (member : .definition given ∈ items) :
    given.Spelled := by
  cases written with
  | items _ sequence =>
    -- The definition has its part of the tokens, and heading and body split that.
    obtain ⟨part, one, inside⟩ := sequence.exists_of_mem member
    cases one with
    | definition defines =>
      cases defines with
      | @definition heading body header rest written below =>
        have inner : ∀ {list : List Token}, list ⊆ header ++ rest → Token.AllSpelled list :=
          fun sub token member => spelled token (inside (sub member))
        exact ⟨written.spelled (inner (List.subset_append_left _ _)),
          below.spelled (inner (List.subset_append_right _ _))⟩

end Grammar

end ArgSchema
