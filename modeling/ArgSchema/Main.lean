import ArgSchema.CommandLine

/-! The program: it reads the files that a compilation asks for, prints, and exits. -/

namespace ArgSchema

/-- The disk with what the system has at a location. -/
def Disk.look (disk : Disk) (location : Location) : IO Disk := do
  let path := (← IO.currentDir) / ("/" ++ "/".intercalate location)
  if ← path.isDir then return { disk with directories := disk.directories ++ [location] }
  else
    -- What cannot be read is not on the disk.
    try
      let bytes ← IO.FS.readBinFile path
      return { disk with files := disk.files ++ [(location, bytes.toList)] }
    catch _ => return disk

/-- The disk with what the system has along a path. -/
def Disk.explore (disk : Disk) (path : String) : IO Disk := do
  let mut here := if Path.isAbsolute path then [] else disk.workingDirectory
  let mut known := disk
  for piece in Path.pieces path do
    -- Each directory on the way is looked at, since a path may leave it again.
    if piece = ".." then here := here.dropLast
    else if !Path.isIdle piece then
      here := here ++ [piece]
      known ← known.look here
  return known

/-- The disk with every file that a compilation asks for.

Each file that is missing is looked for once, and the compilation is started over. -/
partial def Disk.load (disk : Disk) (path : String) (defines tried : List String) : IO Disk := do
  match (compileFile disk .empty path defines).unreadable.find? (!tried.contains ·) with
  | none => return disk
  | some missing => (← disk.explore missing).load path defines (missing :: tried)

/-- The disk that a command line needs. -/
def Disk.ofArguments (arguments : List String) : IO Disk := do
  let here := Path.pieces (← IO.currentDir).toString
  let disk : Disk := ⟨here.filter (!Path.isIdle ·), [], []⟩
  match Command.parse arguments with
  | .ok (.compile path options) => disk.load path options.defines []
  | _ => return disk

/-- Runs a command line on the system's files, prints what it prints and returns its exit code. -/
def runProgram (arguments : List String) : IO UInt32 := do
  let disk ← Disk.ofArguments arguments
  let palette := if (← IO.getEnv "NO_COLOR").isSome then Palette.plain else .ansi
  let outcome := runCommandLine disk palette "adlc" arguments
  (← IO.getStderr).putStr outcome.messages
  (← IO.getStdout).putStr outcome.output
  return outcome.code.toUInt32

end ArgSchema

/-- Runs the command line that the system passes. -/
def main (arguments : List String) : IO UInt32 := ArgSchema.runProgram arguments
