import ArgSchema.Preprocessor.Basic

/-! Directives: includes, names that are defined, and text that is read on a condition. -/

namespace ArgSchema

/-- What a directive asks for. -/
inductive Directive where
  /-- Another file in its place. -/
  | include
  /-- A name to be defined. -/
  | define
  /-- A name to be no longer defined. -/
  | undefine
  /-- Text that counts only if a name is defined, or only if it is not. -/
  | conditional (wanted : Bool)
  /-- The end of such text. -/
  | endif
deriving DecidableEq, Repr

/-- The directive of a name. -/
def Directive.ofName? (name : String) : Option Directive :=
  match name with
  | "include" => some .include
  | "define" | "def" => some .define
  | "undefine" | "undef" => some .undefine
  | "ifdef" => some (.conditional true)
  | "ifndef" => some (.conditional false)
  | "endif" => some .endif
  | _ => none

namespace Preprocessor

/-- A stream that goes on with one report and nothing else. -/
def reporting (stream : Preprocessor) (report : Diagnostic) : Reading Preprocessor Unit :=
  ⟨[report], .ok (), stream⟩

/-- The stream inside a file that it includes. -/
def enter (stream : Preprocessor) (frame : Frame) : Preprocessor :=
  { stream with includes := frame :: stream.includes }

/-- The stream with one more file seen. -/
def see (stream : Preprocessor) (key : FileKey) : Preprocessor :=
  { stream with seen := stream.seen ++ [key] }

/-- The path of an include, relative to the file that asks for it. -/
def includePath (stream : Preprocessor) (name : String) : String :=
  match stream.current.directory? with
  | some directory => Path.join directory name
  | none => name

/-- Includes a file by its path, unless it was asked for before. -/
def includeFile (disk : Disk) (name : Token) (stream : Preprocessor) :
    Reading Preprocessor Unit :=
  let path := stream.includePath name.text
  let key := FileKey.ofPath disk path
  if key.isAmong stream.seen then .ok () stream
  else match disk.read path with
    -- The key stays among those seen, though nothing was read.
    | .error error => .fail (.unreadable path error.message (some name.span)) (stream.see key)
    | .ok source =>
      -- Names inside the file are looked up beside it.
      let crumbs := stream.breadcrumb ++ [name.text]
      .ok () ((stream.see key).enter (Frame.ofSource source crumbs (Path.parent? path)))

/-- Includes a file that comes with the compiler, unless it was included before. -/
def includeLibrary (name : Token) (stream : Preprocessor) : Reading Preprocessor Unit :=
  match LibraryFile.find? name.text with
  | none => stream.reporting (.located (.directive (.unknownLibrary name.text)) name.span)
  | some file =>
    let key := FileKey.unlocated file.marker
    if key.isAmong stream.seen then .ok () stream
    else
      -- A library has no directory, and no file next to it.
      let crumbs := stream.breadcrumb ++ [file.marker]
      .ok () ((stream.see key).enter (Frame.ofSource (Utf8.encode file.source) crumbs none))

/-- Whether an include can be named by a token of some kind. -/
def namesInclude (kind : TokenKind) : Bool := kind = .string || kind = .identifier

/-- Reads the name of an include and includes it. -/
def includeNamed (disk : Disk) (directive : Token) (stream : Preprocessor) :
    Reading Preprocessor Unit :=
  let expected := "string or built-in identifier"
  (stream.onCurrent (Frame.argument directive expected namesInclude)).andThen fun name? next =>
    -- Without a name a report was made, and there is nothing to include.
    match name? with
    | none => .ok () next
    | some name =>
      if name.kind = .string then next.includeFile disk name else next.includeLibrary name

/-- Defines a name, with a warning if it is defined already. -/
def define (name : Token) (stream : Preprocessor) : Reading Preprocessor Unit :=
  if stream.isDefined name.text then
    stream.reporting (.warning (.duplicateDefine name.text) name.span)
  else .ok () { stream with defines := stream.defines ++ [name.text] }

/-- Takes a name's definition back, with a warning if it has none. -/
def undefine (name : Token) (stream : Preprocessor) : Reading Preprocessor Unit :=
  if stream.isDefined name.text then
    .ok () { stream with defines := stream.defines.filter (· ≠ name.text) }
  else stream.reporting (.warning (.missingDefine name.text) name.span)

/-- Opens a conditional in the file that is being read. -/
def openConditional (conditional : Conditional) (stream : Preprocessor) : Preprocessor :=
  let frame := stream.current
  stream.setCurrent (frame.withConditionals (conditional :: frame.conditionals))

/-- Reads the text of a conditional, or skips it. -/
def startConditional (directive : Token) (wanted : Bool) (name : Token) (stream : Preprocessor) :
    Reading Preprocessor Unit :=
  let conditional : Conditional := ⟨directive.text, directive.span⟩
  if stream.isDefined name.text = wanted then .ok () (stream.openConditional conditional)
  else
    -- The text is left out up to the directive that closes it.
    let skipped := stream.onCurrent fun frame =>
      (frame.lexer.skipConditional 0).mapNext frame.withLexer
    skipped.andThen fun closed next =>
      if closed then .ok () next else next.reporting conditional.unterminated

/-- Closes the innermost conditional of the file that is being read. -/
def endConditional (directive : Token) (stream : Preprocessor) : Reading Preprocessor Unit :=
  let frame := stream.current
  match frame.conditionals with
  | [] => stream.reporting (.located (.directive .unmatchedEndif) directive.span)
  | _ :: outer => .ok () (stream.setCurrent (frame.withConditionals outer))

/-- Goes on with the name behind a directive, if there is one. -/
def withName (directive : Token) (stream : Preprocessor)
    (f : Token → Preprocessor → Reading Preprocessor Unit) : Reading Preprocessor Unit :=
  (stream.onCurrent (Frame.nameArgument directive)).andThen fun name? next =>
    match name? with
    | none => .ok () next
    | some name => f name next

/-- Carries out the directive of a token. -/
def carryOut (disk : Disk) (directive : Token) (stream : Preprocessor) :
    Reading Preprocessor Unit :=
  match Directive.ofName? directive.text with
  -- What is no directive is reported, and left at that.
  | none => stream.reporting (.located (.directive (.unknown directive.text)) directive.span)
  | some .include => stream.includeNamed disk directive
  | some .define => stream.withName directive define
  | some .undefine => stream.withName directive undefine
  | some (.conditional wanted) => stream.withName directive (startConditional directive wanted)
  | some .endif => stream.endConditional directive

end Preprocessor

end ArgSchema
