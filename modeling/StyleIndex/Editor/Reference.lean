import StyleIndex.Editor.Request

set_option autoImplicit false

/-! # The symbol under the cursor

A variable is a name after `$`. A name after `@include` or `@mixin` is a mixin, a name after
`@function` or before a parenthesis is a function. Any other name, such as that of a property,
refers to no symbol.
-/

namespace StyleIndex

/-- White space within a line. -/
def isLineSpace (c : UInt8) : Bool := c == Ascii.space || c == Ascii.tab

/-- The keyword of the at-rule whose name follows, given the text before the name in reverse.
The name may be qualified. Without white space in between there is no keyword. -/
def precedingKeyword (reversed : Text) : Text :=
  let unqualified := match reversed with
    | Ascii.dot :: rest => rest.dropWhile isNameByte
    | _ => reversed
  let trimmed := unqualified.dropWhile isLineSpace
  if trimmed.length = unqualified.length then []
  else match trimmed.dropWhile isNameByte with
    | Ascii.atSign :: _ => Text.toLower (trimmed.takeWhile isNameByte).reverse
    | _ => []

/-- A reference to a symbol in a buffer and its extent. -/
structure SymbolReference where
  name : Text
  kind : SymbolKind
  start : Nat
  stop : Nat
  deriving DecidableEq

/-- Whether the cursor stands on the `$` of a variable, given the text before it in reverse and
the text after it. -/
def onDollar (before after : Text) : Bool :=
  after.head? == some Ascii.dollar && !(before.head?.any isNameByte)

/-- The reference around a place, given the text before it in reverse and the text after it.
The place does not stand before the `$` of a variable. -/
def referenceBetween? (before after : Text) : Option SymbolReference :=
  let left := before.takeWhile isNameByte
  let right := after.takeWhile isNameByte
  let name := left.reverse ++ right
  let front := before.dropWhile isNameByte
  let start := front.length
  let stop := start + name.length
  if name.isEmpty then none
  else if front.head? = some Ascii.dollar then
    some ⟨Ascii.dollar :: name, .variableSymbol, start - 1, stop⟩
  else
    let keyword := precedingKeyword front
    if keyword = text "include" ∨ keyword = text "mixin" then some ⟨name, .mixin, start, stop⟩
    else if keyword = text "function" then some ⟨name, .function, start, stop⟩
    else if ((after.dropWhile isNameByte).dropWhile isLineSpace).head? = some Ascii.lparen then
      some ⟨name, .function, start, stop⟩
    else none

/-- The reference under the cursor at an offset of a text. -/
def referenceAt? (t : Text) (offset : Nat) : Option SymbolReference :=
  let before := (t.take offset).reverse
  let after := t.drop offset
  if onDollar before after then referenceBetween? (Ascii.dollar :: before) after.tail
  else referenceBetween? before after

/-- The symbol under the cursor, with the reference to it. -/
def Request.symbol? (r : Request) : Option (SymbolReference × FoundSymbol) := do
  let ref ← referenceAt? r.text r.offset
  let found ← r.visible.lookup? ref.name ref.kind
  return (ref, found)

end StyleIndex
