import ArgSchema.Parser.Reduction
import ArgSchema.Proofs.Grammar.Syntax
import Mathlib.Data.List.Forall2

/-! The grammar of schemas: which tokens spell which syntax. -/

namespace ArgSchema

/-- The marks of a token that is a name. -/
def Token.category? (token : Token) : Option Category :=
  match token.kind with
  | .identifier => some (if token.isWord "meta" then .metadata else .identifier)
  | .shortlabel => some .shortlabel
  | .longlabel => some .longlabel
  | .type => some .type
  | .property => some .property
  | _ => none

/-- The name that a token is. -/
def Token.label? (token : Token) : Option Label := token.category?.map (⟨token.text, ·⟩)

/-- The literal or the reference that a token is, as the contents of a leaf. -/
def Token.value? (token : Token) : Option NodeKind :=
  match token.kind with
  | .string => some (.string token.text)
  | .regex => some (.regex token.text)
  | .number value => some (.number value)
  | .decimal value => some (.decimal value)
  | .boolean value => some (.boolean value)
  | .reference category property => some (.reference token.text category property none)
  | .snippet => some (.snippet token.text)
  | _ => none

/-- What a token holds: the name or the value that it is. -/
def Token.contents? (token : Token) : Option NodeKind :=
  match token.label? with
  | some label => some (.identifier label.name label.category)
  | none => token.value?

/-- The name of a property that a token can head. -/
def Token.keyword? (token : Token) : Option Label :=
  if token.isKeyword then token.label? else none

/-- Whether a token announces the name of a class of warnings to drop. -/
def Token.isSuppress (token : Token) : Bool :=
  token.kind = .modifier && token.text = "suppress"

/-- A name is attached as the leaf that stands for it. -/
theorem Token.leaf?_of_label? {token : Token} {label : Label} (named : token.label? = some label) :
    token.leaf?.map Outline.leaf = some label.outline := by
  -- A token that is a label has a category, and its leaf is the label in it.
  unfold Token.label? Token.category? at named
  unfold Token.leaf?
  cases kind : token.kind <;> simp only [kind, Option.map_some, Option.map_none] at named ⊢ <;>
    cases named <;> rfl

/-- A value is attached as the leaf that stands for it. -/
theorem Token.exists_leaf? {token : Token} (value : token.kind.isValue = true) :
    ∃ leaf, token.leaf? = some leaf := by
  -- The kinds of values are among those that make a leaf.
  unfold TokenKind.isValue at value
  unfold Token.leaf?
  split at value <;> simp_all

/-- The leaves of values are those that the parser attaches for the tokens which it takes as values. -/
theorem Token.value?_eq_some_iff {token : Token} {leaf : NodeKind} :
    token.value? = some leaf ↔ token.kind.isValue = true ∧ token.leaf? = some leaf := by
  unfold Token.value? Token.leaf? TokenKind.isValue
  cases token.kind <;> simp

/-- What a token holds is the leaf that the parser attaches for it. -/
theorem Token.contents?_eq_leaf? (token : Token) : token.contents? = token.leaf? := by
  unfold Token.contents? Token.label? Token.category? Token.value? Token.leaf?
  cases token.kind <;> rfl

namespace Grammar

/-- Repetitions of a phrase, none at all included. -/
inductive Sequence {α : Type} (Phrase : α → List Token → Prop) : List α → List Token → Prop
  /-- No phrase. -/
  | none : Sequence Phrase [] []
  /-- One more phrase at the end. -/
  | more {items item tokens last} : Sequence Phrase items tokens → Phrase item last →
      Sequence Phrase (items ++ [item]) (tokens ++ last)

/-- One more phrase can stand in front of repetitions. -/
theorem Sequence.cons {α : Type} {Phrase : α → List Token → Prop} {item : α} {items : List α}
    {first tokens : List Token} (given : Phrase item first)
    (written : Sequence Phrase items tokens) :
    Sequence Phrase (item :: items) (first ++ tokens) := by
  -- The repetitions grow at their end, so the phrase in front is carried along.
  induction written with
  | none => simpa using Sequence.none.more given
  | more _ last ih =>
    rw [← List.cons_append, ← List.append_assoc]
    exact ih.more last

/-- Repetitions are one phrase for each part of the tokens. -/
theorem Sequence.of_forall₂ {α β : Type} {Phrase : α → List Token → Prop}
    {items : List α} {parts : List β} {tokens : β → List Token}
    (written : List.Forall₂ (fun part item => Phrase item (tokens part)) parts items) :
    Sequence Phrase items (parts.flatMap tokens) := by
  induction written with
  | nil => exact .none
  | cons first _ ih => exact ih.cons first

/-- A phrase, or a phrase in square brackets. -/
inductive Bracketed (Phrase : List Token → Prop) : Bool → List Token → Prop
  /-- The phrase alone. -/
  | bare {tokens} : Phrase tokens → Bracketed Phrase false tokens
  /-- The phrase in brackets. -/
  | brackets {opening tokens closing} : opening.kind = .openSquare → Phrase tokens →
      closing.kind = .closeSquare → Bracketed Phrase true (opening :: tokens ++ [closing])

/-- Semicolons that are dropped. -/
def Strays (tokens : List Token) : Prop := ∀ token ∈ tokens, token.kind = .semicolon

/-- A modifier that suppresses a known class of warnings, and the name of the class. -/
inductive Suppression : WarningClass → List Token → Prop
  /-- The modifier and the name. -/
  | pair {modifier word kind} : modifier.isSuppress = true → word.kind = .identifier →
      WarningClass.ofName? word.text = some kind → Suppression kind [modifier, word]

/-- A literal or a reference. -/
inductive Value : NodeKind → List Token → Prop
  /-- One token. -/
  | token {token leaf} : token.value? = some leaf → Value leaf [token]

/-- A property and the semicolons that are dropped behind it. -/
inductive Config : Statement → List Token → Prop
  /-- Suppressions, a keyword, values and a semicolon. -/
  | statement {suppressions keyword values marks word literals closing strays} :
      Sequence Suppression suppressions marks → word.keyword? = some keyword →
      values ≠ [] → Sequence Value values literals → closing.kind = .semicolon → Strays strays →
      Config ⟨suppressions, keyword, values⟩ (marks ++ word :: literals ++ closing :: strays)

/-- Properties in curly brackets; semicolons behind the opening bracket are dropped. -/
inductive Body : List Statement → List Token → Prop
  /-- An opening bracket, properties and a closing bracket. -/
  | braces {statements opening strays tokens closing} : opening.kind = .openCurly →
      Strays strays → Sequence Config statements tokens → closing.kind = .closeCurly →
      Body statements (opening :: strays ++ tokens ++ [closing])

/-- A name in angle brackets. -/
inductive TypeName : String → List Token → Prop
  /-- One token. -/
  | token {token} : token.kind = .type → TypeName token.text [token]

/-- Type names, with three dots behind them if there can be several values. -/
inductive TypeList (names : List String) : Bool → List Token → Prop
  /-- The names alone. -/
  | once {tokens} : names ≠ [] → Sequence TypeName names tokens → TypeList names false tokens
  /-- The names and three dots. -/
  | variadic {tokens dots} : names ≠ [] → Sequence TypeName names tokens →
      dots.kind = .ellipsis → TypeList names true (tokens ++ [dots])

/-- A word other than the one for the schema itself. -/
inductive Word : String → List Token → Prop
  /-- One token. -/
  | token {token} : token.kind = .identifier → token.text ≠ "meta" → Word token.text [token]

/-- The labels of an option, the short one first. -/
inductive Labels : List Label → List Token → Prop
  /-- A shortlabel. -/
  | short {token} : token.kind = .shortlabel → Labels [⟨token.text, .shortlabel⟩] [token]
  /-- A longlabel. -/
  | long {token} : token.kind = .longlabel → Labels [⟨token.text, .longlabel⟩] [token]
  /-- A shortlabel and a longlabel. -/
  | both {short long} : short.kind = .shortlabel → long.kind = .longlabel →
      Labels [⟨short.text, .shortlabel⟩, ⟨long.text, .longlabel⟩] [short, long]

/-- What stands in front of a body. -/
inductive Header : Heading → List Token → Prop
  /-- The word for the schema itself. -/
  | metadata {token} : token.kind = .identifier → token.text = "meta" →
      Header ⟨.metadata, [], none⟩ [token]
  /-- A type's name. -/
  | typeDefinition {name tokens} : TypeName name tokens →
      Header ⟨.typeDefinition, [⟨name, .type⟩], none⟩ tokens
  /-- A word and types; brackets around either make the argument optional. -/
  | positional {optional typesOptional variadic name types tokens list} :
      Bracketed (Word name) optional tokens →
      Bracketed (TypeList types variadic) typesOptional list →
      Header ⟨.positional (optional || typesOptional) variadic, [⟨name, .identifier⟩], some types⟩
        (tokens ++ list)
  /-- Labels alone. -/
  | flag {optional labels tokens} : Bracketed (Labels labels) optional tokens →
      Header ⟨.option optional false false, labels, none⟩ tokens
  /-- Labels and types, each in brackets if the option or its value is optional. -/
  | option {optional valueOptional variadic labels types tokens list} :
      Bracketed (Labels labels) optional tokens →
      Bracketed (TypeList types variadic) valueOptional list →
      Header ⟨.option optional valueOptional variadic, labels, some types⟩ (tokens ++ list)

/-- A heading and a body. -/
inductive Defines : Definition → List Token → Prop
  /-- The body follows the heading. -/
  | definition {heading body header tokens} : Header heading header → Body body tokens →
      Defines ⟨heading, body⟩ (header ++ tokens)

/-- What a file can hold. -/
inductive FileItem : Item → List Token → Prop
  /-- A suppression. -/
  | suppress {kind tokens} : Suppression kind tokens → FileItem (.suppress kind) tokens
  /-- A definition. -/
  | definition {given tokens} : Defines given tokens → FileItem (.definition given) tokens

/-- A file: one item or more. -/
inductive File : List Item → List Token → Prop
  /-- The items in order. -/
  | items {items tokens} : items ≠ [] → Sequence FileItem items tokens → File items tokens

end Grammar

end ArgSchema
