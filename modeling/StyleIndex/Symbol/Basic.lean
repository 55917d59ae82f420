import StyleIndex.Position

set_option autoImplicit false

/-! # Symbol records

The index keeps one record per file: the variables, mixins and functions the file declares and
the files it imports. A record is a value; scanning a file again makes a new one.
-/

namespace StyleIndex

/-- The kinds of symbol. -/
inductive SymbolKind where
  | variableSymbol
  | mixin
  | function
  deriving DecidableEq

/-- The name of a kind. -/
def SymbolKind.name : SymbolKind → Text
  | .variableSymbol => text "variable"
  | .mixin => text "mixin"
  | .function => text "function"

/-- The kind with the given name. -/
def SymbolKind.ofName? (name : Text) : Option SymbolKind :=
  [SymbolKind.variableSymbol, .mixin, .function].find? (·.name = name)

/-- A declared variable. -/
structure VariableSymbol where
  name : Text
  value : Text
  offset : Nat
  position : Position
  deriving DecidableEq

/-- A parameter; the default is empty when there is none. -/
structure Parameter where
  name : Text
  default : Text
  deriving DecidableEq

/-- A declared mixin or function. -/
structure CallableSymbol where
  name : Text
  parameters : List Parameter
  offset : Nat
  position : Position
  deriving DecidableEq

/-- An import. The path is absolute unless the import is dynamic or remote. -/
structure Import where
  filepath : Text
  css : Bool
  dynamic : Bool
  reference : Bool
  deriving DecidableEq

/-- Whether the import points at a stylesheet that can be followed. -/
def Import.followable (i : Import) : Bool := !i.css && !i.dynamic

/-- The symbol record of one file. -/
structure Document where
  path : Text
  vars : List VariableSymbol
  mixins : List CallableSymbol
  functions : List CallableSymbol
  imports : List Import
  deriving DecidableEq

/-- The record of a file that declares nothing. -/
def Document.empty (path : Text) : Document := ⟨path, [], [], [], []⟩

end StyleIndex
