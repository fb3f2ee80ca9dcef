import ArgSchema.Disk.Basic
import ArgSchema.Library
import ArgSchema.Preprocessor.Frame

/-! A root file and the files it includes, read as one stream with shared names and files seen. -/

namespace ArgSchema

/-- The stream of a root file with its includes spliced in. -/
structure Preprocessor where
  /-- The root file. -/
  root : Frame
  /-- Included files that are being read, the innermost first. -/
  includes : List Frame
  /-- Keys of the files that were opened or asked for. -/
  seen : List FileKey
  /-- Names that are defined. -/
  defines : List String
  /-- Whether the root file is used up. -/
  done : Bool
deriving DecidableEq, Repr

namespace Preprocessor

/-- The stream of a source under a name, with includes relative to the working directory. -/
def ofSource (name : String) (source : Bytes) (defines : List String) : Preprocessor :=
  ⟨Frame.ofSource source [name] none, [], [], defines, false⟩

/-- The stream of the file at a path, with includes relative to the file's directory. -/
def openFile (disk : Disk) (path : String) (defines : List String) :
    Except Failure Preprocessor :=
  match disk.read path with
  | .error error => .error (.unreadable path error.message none)
  | .ok source =>
    -- The file is seen before anything in it is read, so it cannot include itself.
    .ok ⟨Frame.ofSource source [path] (Path.parent? path), [], [FileKey.ofPath disk path],
      defines, false⟩

/-- The file that tokens are being read from. -/
def current (stream : Preprocessor) : Frame := stream.includes.headD stream.root

/-- The stream with the file that is being read replaced. -/
def setCurrent (stream : Preprocessor) (frame : Frame) : Preprocessor :=
  match stream.includes with
  | [] => { stream with root := frame }
  | _ :: outer => { stream with includes := frame :: outer }

/-- Asks the file that is being read. -/
def onCurrent {value : Type} (stream : Preprocessor) (ask : Frame → Reading Frame value) :
    Reading Preprocessor value :=
  (ask stream.current).mapNext stream.setCurrent

/-- The file that is being read and the files that include it. -/
def breadcrumb (stream : Preprocessor) : Breadcrumb := stream.current.lexer.breadcrumb

/-- Whether the root file is used up. -/
def eof (stream : Preprocessor) : Bool := stream.done

/-- Whether a name is defined. -/
def isDefined (stream : Preprocessor) (name : String) : Bool := stream.defines.contains name

/-- Puts a token in front of the others. -/
def push (stream : Preprocessor) (token : Token) : Preprocessor :=
  stream.setCurrent (stream.current.push token)

/-- Keys of all files that could still be opened. -/
def openable (disk : Disk) : List FileKey :=
  disk.files.map (.located ·.1) ++ LibraryFile.all.map (.unlocated ·.marker)

/-- Number of files that were not seen. -/
def unseen (disk : Disk) (stream : Preprocessor) : Nat :=
  (openable disk).countP (!·.isAmong stream.seen)

/-- What the files being read still hold, with one unit for each file that can end. -/
def weight (stream : Preprocessor) : Nat :=
  stream.root.lexer.weight +
    stream.includes.foldr (fun frame rest => frame.lexer.weight + 1 + rest) 0

/-- Replacing the current file changes the weight by the difference of the two. -/
theorem weight_setCurrent (stream : Preprocessor) (frame : Frame) :
    (stream.setCurrent frame).weight + stream.current.lexer.weight =
      stream.weight + frame.lexer.weight := by
  -- Only the current file's weight is exchanged.
  unfold setCurrent current weight
  cases stream.includes with
  | nil => simp; omega
  | cons inner outer => simp; omega

/-- Replacing the current file leaves the files seen. -/
theorem seen_setCurrent (stream : Preprocessor) (frame : Frame) :
    (stream.setCurrent frame).seen = stream.seen := by
  unfold setCurrent
  split <;> rfl

/-- Seeing a file for the first time leaves fewer files to open. -/
theorem unseen_lt {disk : Disk} {stream later : Preprocessor} {key : FileKey}
    (seen : later.seen = stream.seen ++ [key]) (fresh : key.isAmong stream.seen = false)
    (member : key ∈ openable disk) : later.unseen disk < stream.unseen disk := by
  -- No file comes to be unseen, and the key's own file counted before.
  have implied : ∀ file : FileKey,
      (!file.isAmong later.seen) = true → (!file.isAmong stream.seen) = true := by
    intro file
    simp only [seen, FileKey.isAmong, List.any_append, Bool.not_eq_true', Bool.or_eq_false_iff]
    exact fun both => both.1
  unfold unseen
  generalize openable disk = files at member ⊢
  induction files with
  | nil => cases member
  | cons file rest ih =>
    have tail : rest.countP (!·.isAmong later.seen) ≤ rest.countP (!·.isAmong stream.seen) :=
      List.countP_mono_left fun file _ => implied file
    rcases List.mem_cons.mp member with same | member
    -- The key itself: it counted before, and does not now.
    · subst same
      have now : key.isAmong later.seen = true := by simp [seen, FileKey.isAmong]
      simp only [List.countP_cons, now, fresh]
      simp
      omega
    -- Another file: at most it stops counting, and the key counts further on.
    · have rest := ih member
      have head := implied file
      simp only [List.countP_cons]
      split
      · next stays => simp only [head stays, if_true]; omega
      · split <;> omega

end Preprocessor

end ArgSchema
