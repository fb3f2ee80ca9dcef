import ArgSchema.Compilation
import ArgSchema.Layout
import ArgSchema.SymbolTable.Render

/-! The command line: what arguments ask for, and what the command prints and returns. -/

namespace ArgSchema

/-- Settings of a compilation. -/
structure Options where
  /-- Names that are defined from the start. -/
  defines : List String
  /-- Whether the table of top-level names is printed. -/
  printSymbols : Bool
  /-- Whether the checked file is printed in its canonical layout. -/
  printLayout : Bool
deriving DecidableEq, Repr

/-- Settings that define and print nothing. -/
def Options.none : Options := ⟨[], false, false⟩

/-- What a command line asks for. -/
inductive Command where
  /-- The list of options. -/
  | help
  /-- A line that says how the command is called. -/
  | usage
  /-- A compilation of the file at a path. -/
  | compile (path : String) (options : Options)
deriving DecidableEq, Repr

/-- Arguments that ask for nothing. -/
inductive ArgumentError where
  /-- Nothing follows an option that takes a name. -/
  | missingName (option : String)
  /-- No option is written this way. -/
  | unknownOption (argument : String)
  /-- A path was given already. -/
  | secondPath (argument : String)
deriving DecidableEq, Repr

/-- The message of an argument error. -/
def ArgumentError.message : ArgumentError → String
  | .missingName option => "'" ++ option ++ "' expects a name"
  | .unknownOption argument => "unknown option '" ++ argument ++ "'"
  | .secondPath argument => "unexpected argument '" ++ argument ++ "'"

namespace Command

/-- The name that an argument defines without a space. -/
def defined? (argument : String) : Option String :=
  match argument.toList with
  | '-' :: 'D' :: c :: rest => some (String.ofList (c :: rest))
  | _ => none

/-- The settings with one more name defined. -/
def define (options : Options) (name : String) : Options :=
  { options with defines := options.defines ++ [name] }

/-- What the remaining arguments ask for, given the path and the settings so far. -/
def parseFrom (path? : Option String) (options : Options) :
    List String → Except ArgumentError Command
  | [] => .ok ((path?.map (.compile · options)).getD .usage)
  | argument :: rest =>
    -- A definition may be joined to its option; all other options stand alone.
    match defined? argument with
    | some name => parseFrom path? (define options name) rest
    | none =>
      if argument = "-h" || argument = "--help" then .ok .help
      else if argument = "-D" || argument = "--define" then
        match rest with
        | [] => .error (.missingName argument)
        | name :: rest => parseFrom path? (define options name) rest
      else if argument = "--symbols" then parseFrom path? { options with printSymbols := true } rest
      else if argument = "--ast" then parseFrom path? { options with printLayout := true } rest
      -- What starts with a dash is an option, and so never a path.
      else if argument.toList.head? = some '-' then .error (.unknownOption argument)
      else if path?.isSome then .error (.secondPath argument)
      else parseFrom (some argument) options rest

/-- What arguments ask for. -/
def parse (arguments : List String) : Except ArgumentError Command :=
  parseFrom none Options.none arguments

end Command

/-- What a command prints and returns. -/
structure Outcome where
  /-- The exit code. -/
  code : UInt8
  /-- What goes to standard output. -/
  output : String
  /-- What goes to standard error. -/
  messages : String
deriving DecidableEq, Repr

namespace Outcome

/-- How a program is called. -/
def usage (program : String) : String := "Usage: " ++ program ++ " <file_to_compile>\n"

/-- How a program is called, with its options. -/
def help (program : String) : String :=
  usage program ++ "\n" ++
    "Options:\n" ++
    "  -D, --define NAME  Define NAME for #ifdef and #ifndef\n" ++
    "      --symbols      Print the root symbol table\n" ++
    "      --ast          Print the checked file in canonical form\n" ++
    "  -h, --help         Show this help\n" ++
    "\n" ++
    "Environment:\n" ++
    "  RUST_LOG  Log filter (default: warn)\n" ++
    "  NO_COLOR  Disable colored diagnostics\n"

/-- What a checked tree adds to standard output. -/
def printed (options : Options) (tree : Tree) : String :=
  (if options.printSymbols then tree.table.render tree else "") ++
    (if options.printLayout then tree.format else "")

/-- What a compilation prints and returns. -/
def ofCompilation (palette : Palette) (options : Options) (compilation : Compilation) : Outcome :=
  let messages := compilation.record.render palette
  match compilation.result with
  | .error _ => ⟨1, "", messages⟩
  | .ok tree => ⟨0, printed options tree, messages⟩

end Outcome

/-- Runs a command line. -/
def runCommandLine (disk : Disk) (palette : Palette) (program : String)
    (arguments : List String) : Outcome :=
  match Command.parse arguments with
  | .error error => ⟨2, "", "Error: " ++ error.message ++ "\n" ++ Outcome.usage program⟩
  | .ok .help => ⟨0, "", Outcome.help program⟩
  | .ok .usage => ⟨0, "", Outcome.usage program⟩
  | .ok (.compile path options) =>
    .ofCompilation palette options (compileFile disk .empty path options.defines)

end ArgSchema
