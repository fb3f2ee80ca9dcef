import ArgSchema.Parser.Basic
import ArgSchema.Resolution.References
import ArgSchema.Resolution.Registration

/-! Compilations: the phases that check a schema, each of which runs only if nothing is wrong so far. -/

namespace ArgSchema

/-- A phase of a compilation, named where the compilation stops in it. -/
inductive Phase where
  /-- Tokens become a tree. -/
  | parse
  /-- Names are entered into tables. -/
  | registration
  /-- Uses of names are looked up. -/
  | references
deriving DecidableEq, Repr

/-- The words for a phase. -/
def Phase.name : Phase → String
  | .parse => "parse"
  | .registration => "symbol table construction"
  | .references => "reference checking"

/-- What a compilation leaves behind. -/
structure Compilation where
  /-- Everything that was reported. -/
  record : Diagnostics
  /-- The checked tree, or the phase that found errors. -/
  result : Except Phase Tree

namespace Compilation

/-- A compilation that stops in a phase if anything is wrong by then. -/
def finish (phase : Phase) (record : Diagnostics) (tree : Tree) : Compilation :=
  ⟨record, if record.hasErrors then .error phase else .ok tree⟩

/-- A compilation that fails in a phase; the breadcrumb is that of the root file. -/
def fail (phase : Phase) (record : Diagnostics) (breadcrumb : Breadcrumb) (failure : Failure) :
    Compilation :=
  ⟨record.push (failure.diagnostic breadcrumb), .error phase⟩

/-- Goes on with a phase that works on the tree. -/
def andThen (compilation : Compilation) (breadcrumb : Breadcrumb) (phase : Phase)
    (pass : Tree → Reading Tree Unit) : Compilation :=
  match compilation.result with
  -- A phase that failed is the last one.
  | .error _ => compilation
  | .ok tree =>
    let reading := pass tree
    let record := compilation.record.pushAll reading.reports
    match reading.result with
    | .error failure => fail phase record breadcrumb failure
    | .ok () => finish phase record reading.next

/-- The paths that could not be read. -/
def unreadable (compilation : Compilation) : List String :=
  compilation.record.entries.filterMap fun diagnostic =>
    match diagnostic.problem with
    | .unreadable path _ => some path
    | _ => none

end Compilation

/-- Compiles a stream; the breadcrumb is that of the root file. -/
def Preprocessor.compile (disk : Disk) (record : Diagnostics) (breadcrumb : Breadcrumb)
    (stream : Preprocessor) : Compilation :=
  let parsed := stream.parse disk
  -- Suppressions take effect where they were read, among the reports.
  let record := record.applyAll parsed.events
  let compilation := match parsed.result with
    | .error failure => Compilation.fail .parse record breadcrumb failure
    | .ok tree => Compilation.finish .parse record tree
  let registered := compilation.andThen breadcrumb .registration Tree.buildSymbolTable
  registered.andThen breadcrumb .references Tree.checkReferences

/-- Compiles a source under a name, starting with some names defined. -/
def compileSource (disk : Disk) (record : Diagnostics) (name : String) (source : Bytes)
    (defines : List String) : Compilation :=
  (Preprocessor.ofSource name source defines).compile disk record [name]

/-- Compiles the file at a path, starting with some names defined. -/
def compileFile (disk : Disk) (record : Diagnostics) (path : String) (defines : List String) :
    Compilation :=
  match Preprocessor.openFile disk path defines with
  | .error failure => Compilation.fail .parse record [path] failure
  | .ok stream => stream.compile disk record [path]

end ArgSchema
