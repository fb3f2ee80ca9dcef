import ArgSchema.Diagnostic.Render
import ArgSchema.Tree.Basic

/-! Symbol tables as text: a flat list, or a list with the tables of the definitions inside. -/

namespace ArgSchema

namespace SymbolTable

/-- The lines for the live nodes that resolved against an entry. -/
def referenceLines (tree : Tree) (indent : String) (entry : Entry) : String :=
  String.join (entry.references.filterMap fun id => (tree.get? id).map fun node =>
    indent ++ "   referenced by a " ++ node.type.name ++ " at line " ++
      toString node.span.line ++ "\n")

/-- The entries of a table, tables inside them being indented; none below the depth given. -/
def nestedLines (tree : Tree) : Nat → Nat → SymbolTable → String
  | 0, _, _ => ""
  | depth + 1, columns, table =>
    let indent := repeated columns " "
    String.join (table.entries.map fun entry =>
      let head := indent ++ entry.type.name ++ " " ++ entry.id
      -- An empty table is not shown.
      let nested? := (tree.table? entry.node).filter (!·.isEmpty)
      if entry.references.isEmpty && nested?.isNone then head ++ "\n"
      else
        let nested := match nested? with
          | some inner =>
            indent ++ "   nested table:\n" ++ nestedLines tree depth (columns + 6) inner
          | none => ""
        head ++ " [\n" ++ referenceLines tree indent entry ++ nested ++ indent ++ "]\n")

/-- The table with the tables of its definitions. -/
def render (tree : Tree) (table : SymbolTable) : String :=
  -- Tables that lie in each other belong to different nodes.
  nestedLines tree (tree.nodes.size + 1) 0 table

/-- The table as one line for each entry. -/
def flat (table : SymbolTable) : String :=
  String.join (table.entries.map fun entry =>
    let count := if entry.references.isEmpty then ""
      else " (" ++ toString entry.references.length ++ " references)"
    entry.type.name ++ " " ++ entry.id ++ count ++ "\n")

end SymbolTable

end ArgSchema
