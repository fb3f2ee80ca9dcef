import ArgSchema.Token
import ArgSchema.Tree.Error

/-! The parser's stack: tokens that were read, and nodes that were made of some of them. -/

namespace ArgSchema

/-- An entry of the parser's stack. -/
inductive Symbol where
  /-- A token as it was read. -/
  | token (token : Token)
  /-- A node made of tokens. -/
  | node (id : NodeId)
deriving DecidableEq, Repr

/-- Symbols from the top down. -/
structure SymbolStack where
  /-- The symbols, the top one first. -/
  symbols : List Symbol
deriving DecidableEq, Repr

namespace SymbolStack

/-- A stack without symbols. -/
def empty : SymbolStack := ⟨[]⟩

/-- The stack with one more symbol on top. -/
def push (stack : SymbolStack) (symbol : Symbol) : SymbolStack := ⟨symbol :: stack.symbols⟩

/-- The stack without its top symbol. -/
def pop (stack : SymbolStack) : SymbolStack := ⟨stack.symbols.drop 1⟩

/-- The symbol below some others. -/
def peek? (stack : SymbolStack) (depth : Nat) : Option Symbol := stack.symbols[depth]?

/-- Some symbols from the top, the lowest first, and the stack without them. -/
def splitOff (stack : SymbolStack) (count : Nat) : List Symbol × SymbolStack :=
  ((stack.symbols.take count).reverse, ⟨stack.symbols.drop count⟩)

/-- Number of symbols. -/
def size (stack : SymbolStack) : Nat := stack.symbols.length

/-- Whether there are no symbols. -/
def isEmpty (stack : SymbolStack) : Bool := stack.symbols.isEmpty

/-- The symbols from the bottom up. -/
def toList (stack : SymbolStack) : List Symbol := stack.symbols.reverse

end SymbolStack

end ArgSchema
