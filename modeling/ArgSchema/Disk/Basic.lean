import ArgSchema.Disk.Path
import ArgSchema.Text.Utf8

/-! Files, directories and links, how paths lead to files, and why reading one can fail. -/

namespace ArgSchema

/-- Why a file cannot be read. -/
inductive ReadError where
  /-- Nothing has the name. -/
  | notFound
  /-- The path leads to a directory. -/
  | isDirectory
  /-- The path goes on behind a file. -/
  | notDirectory
  /-- The path leads through more links than the system allows. -/
  | tooManyLinks
  /-- A name or the whole path is longer than the system allows. -/
  | nameTooLong
  /-- The bytes of the file are not UTF-8. -/
  | notText
  /-- A name holds the character that ends names. -/
  | nulInName
deriving DecidableEq, Repr

/-- The system's wording of a read error. -/
def ReadError.message : ReadError → String
  | .notFound => "No such file or directory (os error 2)"
  | .isDirectory => "Is a directory (os error 21)"
  | .notDirectory => "Not a directory (os error 20)"
  | .tooManyLinks => "Too many levels of symbolic links (os error 40)"
  | .nameTooLong => "File name too long (os error 36)"
  | .notText => "stream did not contain valid UTF-8"
  | .nulInName => "file name contained an unexpected NUL byte"

/-- The names from the root directory down to a file or directory. -/
abbrev Location := List String

/-- What turns paths in their course: the directory that they start in, and symbolic links. -/
structure Routes where
  /-- Where relative paths start. -/
  workingDirectory : Location
  /-- The location of each link, and the path that it stands for. -/
  links : List (Location × String) := []
deriving Repr

/-- A directory to start in, without a link. -/
instance : Coe Location Routes := ⟨fun directory => { workingDirectory := directory }⟩

/-- Files and directories, and how paths lead to them. -/
structure Disk extends Routes where
  /-- Directories that exist whether or not they hold a file. -/
  directories : List Location
  /-- Files with their contents. -/
  files : List (Location × Bytes)
deriving Repr

namespace Disk

/-- A disk with nothing but its root directory. -/
def empty : Disk := { workingDirectory := [], directories := [], files := [] }

/-- Longest name of a file or directory, in bytes. -/
def longestName : Nat := 255

/-- Longest path that can be read, in bytes. -/
def longestPath : Nat := 4095

/-- Most links that a path can lead through. -/
def mostLinks : Nat := 40

/-- The contents of the file at a location. -/
def contents? (disk : Disk) (location : Location) : Option Bytes :=
  (disk.files.find? (·.1 = location)).map (·.2)

/-- The path that the link at a location stands for. -/
def link? (disk : Disk) (location : Location) : Option String :=
  (disk.links.find? (·.1 = location)).map (·.2)

/-- Whether a location is a directory: a listed one, or one above something that exists. -/
def isDirectory (disk : Disk) (location : Location) : Bool :=
  location.isPrefixOf disk.workingDirectory || disk.directories.any (location.isPrefixOf ·) ||
    (disk.files.map (·.1) ++ disk.links.map (·.1)).any fun other =>
      location.isPrefixOf other && location ≠ other

/-- Where the pieces of a path lead: to their end, or to a link in front of other pieces. -/
inductive Passage where
  /-- All pieces were followed. -/
  | ended (location : Location)
  /-- A directory holds a link, and pieces follow behind it. -/
  | linked (here : Location) (target : String) (rest : List String)

/-- Follows the pieces of a path from a location up to the first link. -/
def pass (disk : Disk) (here : Location) : List String → Except ReadError Passage
  | [] => .ok (.ended here)
  | piece :: rest =>
    -- Even an idle piece needs a directory to stand in.
    if !disk.isDirectory here then .error .notDirectory
    else if Path.isIdle piece then disk.pass here rest
    else if piece = ".." then disk.pass here.dropLast rest
    else if longestName < piece.utf8ByteSize then .error .nameTooLong
    else
      let next := here ++ [piece]
      match disk.link? next with
      | some target => .ok (.linked here target rest)
      | none =>
        if disk.isDirectory next || (disk.contents? next).isSome then disk.pass next rest
        else .error .notFound

/-- Where a path starts that is read in a directory. -/
def start (here : Location) (path : String) : Location := if Path.isAbsolute path then [] else here

/-- Follows the pieces of a path from a location, through a limited number of links. -/
def follow (disk : Disk) (links : Nat) (here : Location) (pieces : List String) :
    Except ReadError Location := do
  match ← disk.pass here pieces with
  | .ended location => .ok location
  -- The pieces of the target stand in front of those that were left.
  | .linked middle target rest =>
    match links with
    | 0 => .error .tooManyLinks
    | links + 1 => disk.follow links (start middle target) (Path.pieces target ++ rest)

/-- The location a path leads to. -/
def locate (disk : Disk) (path : String) : Except ReadError Location :=
  if path.toList.contains '\x00' then .error .nulInName
  else if path = "" then .error .notFound
  else disk.follow mostLinks (start disk.workingDirectory path) (Path.pieces path)

/-- The bytes of the text file that a path leads to. -/
def read (disk : Disk) (path : String) : Except ReadError Bytes :=
  if path.toList.contains '\x00' then .error .nulInName
  else if longestPath < path.utf8ByteSize then .error .nameTooLong
  else match disk.locate path with
    | .error error => .error error
    | .ok location =>
      -- A location without contents can still be opened, as a directory.
      match disk.contents? location with
      | none => .error .isDirectory
      | some bytes => if (Utf8.decode? bytes).isSome then .ok bytes else .error .notText

/-- Reading a file means that its location is among the files. -/
theorem locate_of_read {disk : Disk} {path : String} {bytes : Bytes}
    (opened : disk.read path = .ok bytes) :
    ∃ location, disk.locate path = .ok location ∧ location ∈ disk.files.map (·.1) := by
  -- The contents were found under the location itself.
  unfold read at opened
  split at opened
  · cases opened
  split at opened
  · cases opened
  split at opened
  · cases opened
  · next location located =>
    split at opened
    · cases opened
    · next found =>
      refine ⟨location, located, ?_⟩
      simp only [contents?, Option.map_eq_some_iff] at found
      obtain ⟨file, named, _⟩ := found
      have member := List.mem_of_find?_eq_some named
      have same := List.find?_some named
      simp only [decide_eq_true_eq] at same
      exact List.mem_map.mpr ⟨file, member, same⟩

end Disk

/-- How a source is recognised when it is included again. -/
inductive FileKey where
  /-- By its location, whatever path led there. -/
  | located (location : Location)
  /-- By a path that leads nowhere, or by the marker of a library file. -/
  | unlocated (path : String)
deriving DecidableEq, Repr

namespace FileKey

/-- The key of a path. -/
def ofPath (disk : Disk) (path : String) : FileKey :=
  match disk.locate path with
  | .ok location => .located location
  | .error _ => .unlocated path

/-- The steps by which keys are compared. -/
def components : FileKey → List String
  | .located location => "/" :: location
  | .unlocated path => Path.components path

/-- The path of a key. -/
def text : FileKey → String
  | .located location => "/" ++ "/".intercalate location
  | .unlocated path => path

/-- Whether a list holds a key. -/
def isAmong (key : FileKey) (keys : List FileKey) : Bool :=
  keys.any (·.components = key.components)

end FileKey

end ArgSchema
