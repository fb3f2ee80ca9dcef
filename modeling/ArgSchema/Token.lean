import ArgSchema.Source
import ArgSchema.Text.Binary64

/-! Tokens of schema text: names in their categories, literal values and punctuation. -/

namespace ArgSchema

/-- How a name is written, which decides what it can refer to. -/
inductive Category where
  /-- A bare word that names a positional argument. -/
  | identifier
  /-- A name of one character behind one dash. -/
  | shortlabel
  /-- A name behind two dashes. -/
  | longlabel
  /-- A name in angle brackets. -/
  | type
  /-- The word `meta`. -/
  | metadata
  /-- A name behind a dot. -/
  | property
deriving DecidableEq, Repr, Inhabited

/-- A name the way it appears in source text. -/
def Category.external (category : Category) (name : String) : String :=
  match category with
  | .identifier | .metadata => name
  | .shortlabel => "-" ++ name
  | .longlabel => "--" ++ name
  | .type => "<" ++ name ++ ">"
  | .property => "." ++ name

/-- What a token is, with the value of a literal. -/
inductive TokenKind where
  /-- A bare word. -/
  | identifier
  /-- One dash and one character. -/
  | shortlabel
  /-- Two dashes and a name. -/
  | longlabel
  /-- A name in angle brackets. -/
  | type
  /-- A dot and a name. -/
  | property
  /-- A name, a dot and a property; the token's text is the name. -/
  | reference (category : Category) (property : String)
  /-- Quoted text with its escapes resolved. -/
  | string
  /-- Quoted text behind an `r`, backslashes kept. -/
  | regex
  /-- An integer, clamped to 64 bits. -/
  | number (value : Int)
  /-- A decimal fraction. -/
  | decimal (value : Binary64)
  /-- A truth value in parentheses. -/
  | boolean (value : Bool)
  /-- Code between plus signs and braces. -/
  | snippet
  /-- An opening square bracket. -/
  | openSquare
  /-- A closing square bracket. -/
  | closeSquare
  /-- An opening curly bracket. -/
  | openCurly
  /-- A closing curly bracket. -/
  | closeCurly
  /-- A semicolon. -/
  | semicolon
  /-- Three dots. -/
  | ellipsis
  /-- A name behind `#`. -/
  | directive
  /-- A name behind `@`. -/
  | modifier
  /-- The end of the input. -/
  | endOfFile
deriving DecidableEq, Repr, Inhabited

namespace TokenKind

/-- Whether a token can stand in the value list of a property. -/
def isValue : TokenKind → Bool
  | .string | .regex | .number _ | .decimal _ | .boolean _ | .reference .. | .snippet => true
  | _ => false

/-- The words messages use for a kind of token. -/
def describe : TokenKind → String
  | .identifier => "identifier"
  | .shortlabel => "shortlabel"
  | .longlabel => "longlabel"
  | .type => "type"
  | .property => "property keyword"
  | .reference .. => "reference"
  | .string => "string"
  | .regex => "regex"
  | .number _ => "number"
  | .decimal _ => "decimal"
  | .boolean _ => "boolean"
  | .snippet => "code snippet"
  | .openSquare => "'['"
  | .closeSquare => "']'"
  | .openCurly => "'\x7b'"
  | .closeCurly => "'\x7d'"
  | .semicolon => "';'"
  | .ellipsis => "'...'"
  | .directive => "macro"
  | .modifier => "modifier"
  | .endOfFile => "end of file"

/-- Whether two kinds are the same once literal values are ignored. -/
def sameClass (a b : TokenKind) : Bool :=
  -- Each class of tokens has its own description.
  a.describe = b.describe

/-- Whether two kinds agree in class and value, decimals being compared as numbers. -/
def sameValue : TokenKind → TokenKind → Bool
  | .decimal a, .decimal b => a.sameValue b
  | a, b => a = b

end TokenKind

/-- A token with its text and place. -/
structure Token where
  /-- What the token is. -/
  kind : TokenKind
  /-- The part of the text that carries meaning, without dashes, brackets or quotes. -/
  text : String
  /-- Where the token stands. -/
  span : Span
deriving DecidableEq, Repr, Inhabited

namespace Token

/-- Whether the token is a certain bare word. -/
def isWord (token : Token) (word : String) : Bool :=
  token.kind = .identifier && token.text = word

/-- Whether the token ends its stream. -/
def isEnd (token : Token) : Bool := token.kind = .endOfFile

end Token

end ArgSchema
