import StyleIndex.Editor.Location
import StyleIndex.Editor.Reference

set_option autoImplicit false

/-! # Definition and hover

Where the symbol under the cursor is declared, and a summary of its declaration.
-/

namespace StyleIndex

/-- What is shown for the symbol under the cursor. -/
structure HoverResult where
  contents : Text
  range : Range
  definition : Location
  deriving DecidableEq

/-- The declaration of a symbol in one line. -/
def FoundSymbol.declaration (f : FoundSymbol) : Text :=
  match f.kind with
  | .variableSymbol => f.name ++ text ": " ++ f.value ++ text ";"
  | .mixin => text "@mixin " ++ signatureLabel f.name f.parameters ++ text " \x7b…\x7d"
  | .function => text "@function " ++ signatureLabel f.name f.parameters ++ text " \x7b…\x7d"

/-- The summary of a symbol in Markdown: its declaration and its place, counted from one. -/
def FoundSymbol.summary (f : FoundSymbol) : Text :=
  text "```scss\n" ++ f.declaration ++ text "\n```\nDeclared in " ++ Path.base f.document ++
    text ":" ++ Text.ofInt (f.position.line + 1) ++
    text ":" ++ Text.ofInt (f.position.character + 1)

/-- The range of a reference in a text. -/
def SymbolReference.range (r : SymbolReference) (t : Text) : Range :=
  let lines := LineIndex.ofText t
  ⟨lines.positionAt r.start, lines.positionAt r.stop⟩

/-- The summary of the symbol under the cursor. -/
def hover? (s : Store) (b : Buffer) (offset : Int) : Option HoverResult :=
  (b.request s offset).symbol?.map fun (ref, found) =>
    ⟨found.summary, ref.range b.text, found.location⟩

/-- Where the symbol under the cursor is declared. -/
def definition? (s : Store) (b : Buffer) (offset : Int) : Option Location :=
  (b.request s offset).symbol?.map fun (_, found) => found.location

end StyleIndex
