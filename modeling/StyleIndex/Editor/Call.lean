import StyleIndex.Editor.Location
import StyleIndex.Editor.Reference

set_option autoImplicit false

/-! # Calls and signature help

The call around the cursor is found by a scan from the start of the text that keeps a stack of
open parentheses and interpolations. A `;`, `{` or `}` outside an interpolation starts anew.
-/

namespace StyleIndex

/-- Something open around the cursor: a parenthesis with its offset, or an interpolation. -/
inductive CallFrame where
  | paren (offset : Nat)
  | interpolation
  deriving DecidableEq

namespace CallFrame

/-- Whether the frame is a parenthesis. -/
def isParen : CallFrame → Bool
  | .paren _ => true
  | .interpolation => false

/-- Meets a closing parenthesis. -/
def closeParen : List CallFrame → List CallFrame
  | .paren _ :: rest => rest
  | frames => frames

/-- Meets a closing brace. -/
def closeBrace : List CallFrame → List CallFrame
  | .interpolation :: rest => rest
  | _ => []

end CallFrame

/-- The number of bytes after an opening quote `q` up to and including its closing quote, or to
the end of the text. -/
def quotedLength (q : UInt8) : Text → Nat
  | [] => 0
  | c :: rest =>
    if c = Ascii.backslash then
      match rest with
      | [] => 1
      | _ :: after => quotedLength q after + 2
    else if c = q then 1
    else quotedLength q rest + 1

/-- The frames open at the end of a text that starts at offset `pos`, innermost first; nothing
when the text ends inside a comment. -/
def openFrames? (pos : Nat) (frames : List CallFrame) : Text → Option (List CallFrame)
  | [] => some frames
  | c :: rest =>
    if Ascii.isQuote c then
      let n := quotedLength c rest
      openFrames? (pos + 1 + n) frames (rest.drop n)
    else if c = Ascii.slash ∧ rest.head? = some Ascii.star then
      match Text.indexOf? [Ascii.star, Ascii.slash] rest.tail with
      | none => none
      | some i => openFrames? (pos + 1 + (i + 3)) frames (rest.drop (i + 3))
    else if c = Ascii.slash ∧ rest.head? = some Ascii.slash ∧ ¬ frames.any CallFrame.isParen then
      match Text.byteIndex? Ascii.lf rest with
      | none => none
      | some i => openFrames? (pos + 1 + (i + 1)) frames (rest.drop (i + 1))
    else if c = Ascii.hash ∧ rest.head? = some Ascii.lbrace then
      openFrames? (pos + 2) (.interpolation :: frames) (rest.drop 1)
    else if c = Ascii.lparen then openFrames? (pos + 1) (.paren pos :: frames) rest
    else if c = Ascii.rparen then openFrames? (pos + 1) (CallFrame.closeParen frames) rest
    else if c = Ascii.rbrace then openFrames? (pos + 1) (CallFrame.closeBrace frames) rest
    else if c = Ascii.semicolon ∨ c = Ascii.lbrace then openFrames? (pos + 1) [] rest
    else openFrames? (pos + 1) frames rest
termination_by t => t.length
decreasing_by all_goals (simp only [List.length_drop, List.length_cons]; omega)

/-- A call: the name and kind of what is called, and the offset of its parenthesis. -/
structure Call where
  name : Text
  kind : SymbolKind
  parenthesis : Nat
  deriving DecidableEq

/-- The call whose parenthesis stands at an offset. A declaration is no call, and neither is a
variable in front of a parenthesis. -/
def callee? (t : Text) (parenthesis : Nat) : Option Call :=
  let before := (t.take parenthesis).reverse.dropWhile isLineSpace
  let name := (before.takeWhile isNameByte).reverse
  let front := before.dropWhile isNameByte
  if name.isEmpty ∨ front.head? = some Ascii.dollar then none
  else
    let keyword := precedingKeyword front
    if keyword = text "mixin" ∨ keyword = text "function" then none
    else some ⟨name, if keyword = text "include" then .mixin else .function, parenthesis⟩

/-- The offset of the innermost open parenthesis among the frames. -/
def innermostParen? : List CallFrame → Option Nat
  | [] => none
  | .paren offset :: _ => some offset
  | .interpolation :: rest => innermostParen? rest

/-- The call around the cursor at an offset of a text. -/
def findCall? (t : Text) (offset : Nat) : Option Call := do
  let frames ← openFrames? 0 [] (t.take offset)
  let parenthesis ← innermostParen? frames
  callee? t parenthesis

/-- The signature of the call around the cursor and the number of the argument the cursor is
in. -/
structure SignatureHelp where
  label : Text
  parameters : List Text
  activeParameter : Nat
  deriving DecidableEq

/-- The parameter that takes the argument with the given number: a last parameter that ends in
`...` takes all arguments from its own on. -/
def activeParameter (ps : List Parameter) (argument : Nat) : Nat :=
  match ps.getLast? with
  | some last =>
    if ps.length ≤ argument ∧ Text.endsWith last.name (text "...") then ps.length - 1 else argument
  | none => argument

/-- The signature of the call around the cursor. -/
def signatureHelp? (s : Store) (b : Buffer) (offset : Int) : Option SignatureHelp := do
  let r := b.request s offset
  let call ← findCall? r.text r.offset
  let found ← r.visible.lookup? call.name call.kind
  let argument := countTopLevel (r.text.slice (call.parenthesis + 1) r.offset) Ascii.comma
  return ⟨signatureLabel found.name found.parameters, found.parameters.map Parameter.label,
    activeParameter found.parameters argument⟩

end StyleIndex
