import ArgSchema.Parser.Stack
import ArgSchema.Tree.Basic

/-! The headers of definitions: which symbols in front of a body say what the body defines. -/

namespace ArgSchema

/-- What a symbol can be in a header. -/
inductive HeaderPart where
  /-- A bare word. -/
  | word
  /-- The word `meta`. -/
  | metadata
  /-- A shortlabel. -/
  | shortlabel
  /-- A longlabel. -/
  | longlabel
  /-- A type that belongs to no list. -/
  | type
  /-- A list of types. -/
  | types
  /-- An opening square bracket. -/
  | openSquare
  /-- A closing square bracket. -/
  | closeSquare
  /-- Three dots. -/
  | ellipsis
  /-- Anything that no header contains. -/
  | foreign
deriving DecidableEq, Repr

namespace HeaderPart

/-- What a token can be in a header. -/
def ofToken (token : Token) : HeaderPart :=
  match token.kind with
  | .identifier => if token.isWord "meta" then .metadata else .word
  | .shortlabel => .shortlabel
  | .longlabel => .longlabel
  | .type => .type
  | .openSquare => .openSquare
  | .closeSquare => .closeSquare
  | .ellipsis => .ellipsis
  | _ => .foreign

/-- What a symbol can be in a header. -/
def ofSymbol (tree : Tree) : Symbol → HeaderPart
  | .token token => ofToken token
  | .node id => if tree.isOfType (.only .types) id then .types else .foreign

end HeaderPart

/-- How the types of an argument are written. -/
structure TypesForm where
  /-- Number of symbols. -/
  length : Nat
  /-- Whether they stand in square brackets. -/
  optional : Bool
  /-- Whether three dots follow them. -/
  variadic : Bool
deriving DecidableEq, Repr

/-- How the types that end a header are written; the parts come last one first. -/
def TypesForm.ofParts : List HeaderPart → TypesForm
  | .closeSquare :: .ellipsis :: .types :: .openSquare :: _ => ⟨4, true, true⟩
  | .closeSquare :: .types :: .openSquare :: _ => ⟨3, true, false⟩
  | .ellipsis :: .types :: _ => ⟨2, false, true⟩
  | .types :: _ => ⟨1, false, false⟩
  | _ => ⟨0, false, false⟩

/-- How the names of an argument are written. -/
structure NamesForm where
  /-- Number of symbols. -/
  length : Nat
  /-- Whether they stand in square brackets. -/
  optional : Bool
  /-- Whether they are labels. -/
  labelled : Bool
deriving DecidableEq, Repr

/-- How the names that end a header without its types are written; the parts come last one first. -/
def NamesForm.ofParts? : List HeaderPart → Option NamesForm
  | .closeSquare :: .longlabel :: .shortlabel :: .openSquare :: _ => some ⟨4, true, true⟩
  | .closeSquare :: .longlabel :: .openSquare :: _ => some ⟨3, true, true⟩
  | .closeSquare :: .shortlabel :: .openSquare :: _ => some ⟨3, true, true⟩
  | .closeSquare :: .word :: .openSquare :: _ => some ⟨3, true, false⟩
  | .longlabel :: .shortlabel :: _ => some ⟨2, false, true⟩
  | .longlabel :: _ => some ⟨1, false, true⟩
  | .shortlabel :: _ => some ⟨1, false, true⟩
  | .word :: _ => some ⟨1, false, false⟩
  | _ => none

/-- A header: what it defines and how many symbols it takes. -/
structure Header where
  /-- The definition, without properties yet. -/
  kind : NodeKind
  /-- Number of symbols. -/
  length : Nat
deriving DecidableEq, Repr

namespace Header

/-- The header of an argument whose names and types are written in some form. -/
def ofForms? (names : NamesForm) (types : TypesForm) : Option Header :=
  let length := names.length + types.length
  let table := SymbolTable.empty
  if names.labelled then
    some ⟨.option names.optional types.optional types.variadic table, length⟩
  else if types.length = 0 then none
  else
    -- An argument known by its place is optional as soon as its types are.
    some ⟨.positional (names.optional || types.optional) types.variadic table, length⟩

/-- The longest header that some parts end with; they come last one first. -/
def ofParts? (parts : List HeaderPart) : Option Header :=
  match parts with
  | .type :: _ => some ⟨.typeDefinition SymbolTable.empty, 1⟩
  | .metadata :: _ => some ⟨.metadata SymbolTable.empty, 1⟩
  | _ =>
    -- The parts are read from the back, so the types come before the names.
    let types := TypesForm.ofParts parts
    (NamesForm.ofParts? (parts.drop types.length)).bind (ofForms? · types)

/-- The header on top of some symbols. -/
def ofSymbols? (tree : Tree) (symbols : List Symbol) : Option Header :=
  ofParts? (symbols.map (HeaderPart.ofSymbol tree))

end Header

end ArgSchema
