import ArgSchema.Library
import ArgSchema.Tree.Error

/-! What can be wrong with a schema, phase by phase, and the wording of each problem. -/

namespace ArgSchema

/-- A class of warnings that can be suppressed together. -/
inductive WarningClass where
  /-- Integer literals above the greatest integer. -/
  | integerOverflow
  /-- Integer literals below the least integer. -/
  | integerUnderflow
  /-- Decimal literals out of range. -/
  | floatOverflow
  /-- Names that are defined twice. -/
  | duplicateDefine
  /-- Names that are undefined without being defined. -/
  | missingDefine
  /-- Semicolons at the start of a body. -/
  | emptyStatement
  /-- Semicolons after a complete property. -/
  | straySemicolon
  /-- Suppressions with nothing after them. -/
  | straySuppress
deriving DecidableEq, Repr, Inhabited

namespace WarningClass

/-- Every class of warnings, in the order messages list them. -/
def all : List WarningClass :=
  [.integerOverflow, .integerUnderflow, .floatOverflow, .duplicateDefine, .missingDefine,
    .emptyStatement, .straySemicolon, .straySuppress]

/-- The name that suppresses a class of warnings. -/
def name : WarningClass → String
  | .integerOverflow => "integer-overflow"
  | .integerUnderflow => "integer-underflow"
  | .floatOverflow => "float-overflow"
  | .duplicateDefine => "duplicate-define"
  | .missingDefine => "missing-define"
  | .emptyStatement => "empty-statement"
  | .straySemicolon => "stray-semicolon"
  | .straySuppress => "stray-suppress"

/-- The class of warnings of a name. -/
def ofName? (name : String) : Option WarningClass := all.find? (·.name = name)

end WarningClass

/-- The least integer a literal can stand for. -/
def leastInteger : Int := -9223372036854775808

/-- The greatest integer a literal can stand for. -/
def greatestInteger : Int := 9223372036854775807

/-- Something suspicious that does not stop a compilation. -/
inductive Warning where
  /-- The literal is above the greatest integer. -/
  | integerOverflow (literal : String)
  /-- The literal is below the least integer. -/
  | integerUnderflow (literal : String)
  /-- The literal is beyond the finite numbers. -/
  | floatOverflow (literal : String)
  /-- The name is defined already. -/
  | duplicateDefine (name : String)
  /-- The name is not defined. -/
  | missingDefine (name : String)
  /-- A semicolon has no property in front of it. -/
  | emptyStatement
  /-- A semicolon follows a complete property. -/
  | straySemicolon
  /-- A suppression is the last item of its file. -/
  | straySuppress
deriving DecidableEq, Repr

namespace Warning

/-- The class a warning belongs to. -/
def classOf : Warning → WarningClass
  | .integerOverflow _ => .integerOverflow
  | .integerUnderflow _ => .integerUnderflow
  | .floatOverflow _ => .floatOverflow
  | .duplicateDefine _ => .duplicateDefine
  | .missingDefine _ => .missingDefine
  | .emptyStatement => .emptyStatement
  | .straySemicolon => .straySemicolon
  | .straySuppress => .straySuppress

/-- The message of a warning. -/
def message : Warning → String
  | .integerOverflow literal =>
    "integer literal '" ++ literal ++ "' overflows, clamped to " ++ toString greatestInteger
  | .integerUnderflow literal =>
    "integer literal '" ++ literal ++ "' underflows, clamped to " ++ toString leastInteger
  | .floatOverflow literal => "decimal literal '" ++ literal ++ "' is out of range"
  | .duplicateDefine name => "'" ++ name ++ "' is already defined"
  | .missingDefine name => "cannot undefine '" ++ name ++ "', it is not defined"
  | .emptyStatement => "empty property statement encountered"
  | .straySemicolon => "unnecessary semicolon encountered"
  | .straySuppress => "'@suppress' at end of file applies to nothing"

end Warning

/-- Text that is no token. -/
inductive LexicalProblem where
  /-- A dash has nothing behind it. -/
  | emptyShortlabel
  /-- One dash has more than one character behind it. -/
  | shortlabelTooLong (text : String)
  /-- Two dashes have nothing behind them. -/
  | emptyLonglabel
  /-- An angle bracket is not closed before whitespace or the end. -/
  | unterminatedType
  /-- Angle brackets have no name between them. -/
  | emptyType
  /-- A dot behind a name has no property behind it. -/
  | missingProperty
  /-- A quote is not closed. -/
  | unterminatedString
  /-- Parentheses hold something other than a truth value. -/
  | invalidBoolean (text : String)
  /-- Three dashes have no digit behind them. -/
  | invalidNumber
  /-- A block comment is not closed. -/
  | unterminatedComment
  /-- A code snippet is not closed. -/
  | unterminatedSnippet
  /-- A sigil has no name behind it. -/
  | missingName (sigil : Char)
  /-- No token starts with this character. -/
  | unexpectedCharacter (character : Char)
deriving DecidableEq, Repr

/-- The message of a lexical problem. -/
def LexicalProblem.message : LexicalProblem → String
  | .emptyShortlabel => "empty shortlabel"
  | .shortlabelTooLong text =>
    "shortlabel '-" ++ text ++ "' must be a single character, use '--" ++ text ++
      "' for a longlabel"
  | .emptyLonglabel => "empty longlabel"
  | .unterminatedType => "unterminated type, expected '>' before whitespace"
  | .emptyType => "empty type name"
  | .missingProperty => "expected a property name after '.' in reference"
  | .unterminatedString => "unterminated string literal"
  | .invalidBoolean text =>
    "invalid boolean '(" ++ text ++ ")', expected '(true)' or '(false)'"
  | .invalidNumber => "expected digits after '---'"
  | .unterminatedComment => "unterminated multi-line comment"
  | .unterminatedSnippet => "unterminated code snippet, expected '\x7d++'"
  | .missingName sigil => "expected a name after '" ++ sigil.toString ++ "'"
  | .unexpectedCharacter character => "unexpected character: " ++ character.toString

/-- A directive that cannot be carried out. -/
inductive DirectiveProblem where
  /-- No directive has this name. -/
  | unknown (name : String)
  /-- The directive is followed by the wrong kind of token. -/
  | illegalArgument (directive found expected : String)
  /-- No library file has this name. -/
  | unknownLibrary (name : String)
  /-- No conditional of the same file is open. -/
  | unmatchedEndif
  /-- A conditional is still open at the end of its file. -/
  | unterminatedConditional (directive : String)
deriving DecidableEq, Repr

/-- The message of a problem with a directive. -/
def DirectiveProblem.message : DirectiveProblem → String
  | .unknown name => "unknown macro '#" ++ name ++ "'"
  | .illegalArgument directive found expected =>
    "illegal value for '#" ++ directive ++ "': expected " ++ expected ++ ", got " ++ found
  | .unknownLibrary name =>
    "unknown system file '" ++ name ++ "' (valid names are: " ++
      ", ".intercalate (LibraryFile.all.map (·.name)) ++ ")"
  | .unmatchedEndif => "'#endif' without a matching '#ifdef'"
  | .unterminatedConditional directive => "'#" ++ directive ++ "' without a matching '#endif'"

/-- Tokens that form no schema. -/
inductive ParseProblem where
  /-- A semicolon stands outside of every body. -/
  | straySemicolon
  /-- A property has no values. -/
  | emptyProperty (keyword : String)
  /-- The values of a property are not closed. -/
  | missingSemicolon
  /-- Values have no property in front of them. -/
  | missingPropertyName
  /-- Properties stand outside of every body. -/
  | missingOpenCurly
  /-- A body is not closed. -/
  | unterminatedCurly
  /-- No body is open. -/
  | unmatchedCloseCurly
  /-- No square bracket is open. -/
  | missingOpenSquare
  /-- A square bracket is not closed. -/
  | unterminatedSquare
  /-- Nothing names a body. -/
  | namelessBody
  /-- A positional argument has no types. -/
  | missingTypes (name : String)
  /-- Three dots do not follow a type list. -/
  | strayVariadic
  /-- A modifier is unknown or has no property after it. -/
  | strayModifier (name : String)
  /-- A longlabel stands in front of the shortlabel. -/
  | misorderedLabels (short long : String)
  /-- No class of warnings has this name. -/
  | unknownWarning (name : String)
  /-- No particular cause was found. -/
  | unexpected
deriving DecidableEq, Repr

/-- The message of a problem with the order of tokens. -/
def ParseProblem.message : ParseProblem → String
  | .straySemicolon => "stray ';' outside of a definition body"
  | .emptyProperty keyword => "property '" ++ keyword ++ "' has no values"
  | .missingSemicolon => "expected ';' after property values"
  | .missingPropertyName => "property values without a property name"
  | .missingOpenCurly => "properties outside of a definition body (missing '\x7b')"
  | .unterminatedCurly => "unterminated '\x7b'"
  | .unmatchedCloseCurly => "'\x7d' without a matching '\x7b'"
  | .missingOpenSquare => "']' without a matching '['"
  | .unterminatedSquare => "unterminated '['"
  | .namelessBody => "definition body without a name"
  | .missingTypes name => "positional '" ++ name ++ "' has no types"
  | .strayVariadic => "'...' must follow a type list"
  | .strayModifier name => "stray modifier '@" ++ name ++ "'"
  | .misorderedLabels short long =>
    "shortlabel '-" ++ short ++ "' must come before longlabel '--" ++ long ++ "'"
  | .unknownWarning name =>
    "unknown warning '" ++ name ++ "' (expected one of " ++
      ", ".intercalate (WarningClass.all.map (·.name)) ++ ")"
  | .unexpected => "Unexpected symbols."

/-- Names that are defined twice or refer to nothing. -/
inductive NameProblem where
  /-- An argument of the same name comes earlier. -/
  | duplicateArgument (name : String)
  /-- A type of the same name comes earlier. -/
  | duplicateType (name : String)
  /-- A property of the same name comes earlier in its table. -/
  | duplicateProperty (name : String)
  /-- A table has no entry for the name. -/
  | unknownSymbol (name : String)
  /-- No type has the name. -/
  | unknownType (name : String)
  /-- The name belongs to something other than a type. -/
  | notAType (name : String) (found : NodeTypes)
  /-- The schema has no block that describes it. -/
  | unknownMeta
  /-- No argument has the name. -/
  | unknownArgument (name : String)
  /-- The target of a reference lacks the property. -/
  | unknownProperty (target property : String)
deriving DecidableEq, Repr

/-- The message of a problem with a name. -/
def NameProblem.message : NameProblem → String
  | .duplicateArgument name => "duplicate definition of argument '" ++ name ++ "'"
  | .duplicateType name => "duplicate definition of type '" ++ name ++ "'"
  | .duplicateProperty name => "duplicate definition of property '" ++ name ++ "'"
  | .unknownSymbol name => "unknown symbol '" ++ name ++ "'"
  | .unknownType name => "undefined type '" ++ name ++ "'"
  | .notAType name found =>
    "'" ++ name ++ "' names a " ++ found.describe ++ ", not a type definition"
  | .unknownMeta => "reference to meta, but no meta block is defined"
  | .unknownArgument name => "undefined argument '" ++ name ++ "'"
  | .unknownProperty target property => "'" ++ target ++ "' has no property '" ++ property ++ "'"

/-- Anything that can be reported about a schema. -/
inductive Problem where
  /-- Text is no token. -/
  | lexical (problem : LexicalProblem)
  /-- A directive cannot be carried out. -/
  | directive (problem : DirectiveProblem)
  /-- Tokens form no schema. -/
  | parse (problem : ParseProblem)
  /-- A name is wrong. -/
  | name (problem : NameProblem)
  /-- A file cannot be read. -/
  | unreadable (path message : String)
  /-- A tree operation was refused. -/
  | tree (error : TreeError)
  /-- Something is suspicious. -/
  | warning (warning : Warning)
deriving DecidableEq, Repr

namespace Problem

/-- The message of a problem. -/
def message : Problem → String
  | .lexical problem => problem.message
  | .directive problem => problem.message
  | .parse problem => problem.message
  | .name problem => problem.message
  | .unreadable path message => "cannot read '" ++ path ++ "': " ++ message
  | .tree error => "internal compiler error: " ++ error.message
  | .warning found => found.message

/-- The class of a warning, and nothing for an error. -/
def warningClass? : Problem → Option WarningClass
  | .warning found => some found.classOf
  | _ => none

end Problem

end ArgSchema
