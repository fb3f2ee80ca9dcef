/-! Schema files that come with the compiler and are included by name. -/

namespace ArgSchema

/-- A file that comes with the compiler. -/
structure LibraryFile where
  /-- The name that includes it. -/
  name : String
  /-- Its source text. -/
  source : String

namespace LibraryFile

/-- The source text of one type with a description and a pattern. -/
def typeBlock (name description pattern : String) : String :=
  "<" ++ name ++ "> \x7b\n    .name \"" ++ description ++ "\";\n    .pattern r\"" ++ pattern ++
    "\";\n\x7d\n"

/-- Names, descriptions and patterns of the standard types. -/
def standardTypes : List (String × String × String) :=
  [("int8", "8-bit integer", "-?[0-9]+"),
    ("uint8", "8-bit unsigned integer", "[0-9]+"),
    ("int16", "16-bit integer", "-?[0-9]+"),
    ("uint16", "16-bit unsigned integer", "[0-9]+"),
    ("int32", "32-bit integer", "-?[0-9]+"),
    ("uint32", "32-bit unsigned integer", "[0-9]+"),
    ("int64", "64-bit integer", "-?[0-9]+"),
    ("uint64", "64-bit unsigned integer", "[0-9]+"),
    ("float", "single-precision floating point", "-?[0-9]+(\\.[0-9]+)?"),
    ("double", "double-precision floating point", "-?[0-9]+(\\.[0-9]+)?"),
    ("bool", "boolean", "true|false"),
    ("string", "string", ".+"),
    ("char", "character", ".")]

/-- The file that defines the standard types. -/
def stdtypes : LibraryFile where
  name := "stdtypes"
  source :=
    -- A comment line comes first, and a blank line stands in front of each type.
    "/* Built-in types, available through `#include stdtypes`. */\n" ++
      String.join (standardTypes.map fun (name, description, pattern) =>
        "\n" ++ typeBlock name description pattern)

/-- Every file that comes with the compiler. -/
def all : List LibraryFile := [stdtypes]

/-- The file of a name. -/
def find? (name : String) : Option LibraryFile := all.find? (·.name = name)

/-- How a library file is named in breadcrumbs and among the files seen. -/
def marker (file : LibraryFile) : String := "<" ++ file.name ++ ">"

end LibraryFile

end ArgSchema
