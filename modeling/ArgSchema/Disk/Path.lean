/-! File paths as text: joining, parents and the components that paths are compared by. -/

namespace ArgSchema.Path

/-- The pieces between the slashes of a text. -/
def splitSlashes : List Char → List (List Char)
  | [] => [[]]
  | c :: rest =>
    match splitSlashes rest with
    | [] => [[c]]
    | piece :: pieces => if c = '/' then [] :: piece :: pieces else (c :: piece) :: pieces

/-- The pieces between the slashes of a path, empty ones included. -/
def pieces (path : String) : List String := (splitSlashes path.toList).map String.ofList

/-- Whether a path starts at the root directory. -/
def isAbsolute (path : String) : Bool := path.toList.head? = some '/'

/-- Whether a piece of a path changes nothing. -/
def isIdle (piece : String) : Bool := piece = "" || piece = "."

/-- The steps a path consists of: repeated slashes and inner dots do not count. -/
def components (path : String) : List String :=
  match pieces path with
  | [] => []
  | first :: rest =>
    -- A leading slash or dot does count.
    let start :=
      if isAbsolute path then ["/"] else if first = "" then [] else [first]
    start ++ rest.filter (!isIdle ·)

/-- A path seen from a directory; an absolute path stays as it is. -/
def join (directory path : String) : String :=
  if isAbsolute path || directory = "" then path
  else if directory.toList.getLast? = some '/' then directory ++ path
  else directory ++ "/" ++ path

/-- Pieces without the idle ones at the end, except that the first is kept. -/
def trimIdle : List String → List String
  | [] => []
  | first :: rest => first :: (rest.reverse.dropWhile isIdle).reverse

/-- The path of pieces, a lone empty piece being the root directory. -/
def ofPieces (pieces : List String) : String :=
  if pieces = [""] then "/" else "/".intercalate pieces

/-- The directory that a path lies in; the root directory and the empty path lie in none. -/
def parent? (path : String) : Option String :=
  let trimmed := trimIdle (pieces path)
  if trimmed = [""] then none else some (ofPieces (trimIdle trimmed.dropLast))

end ArgSchema.Path
