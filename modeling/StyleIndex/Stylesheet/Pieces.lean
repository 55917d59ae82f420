import StyleIndex.Text.Basic

set_option autoImplicit false

/-! # Lists inside a statement

Parameter lists, argument lists and import lists are cut at separators that stand outside
brackets, braces and quotations. A quotation here runs from a quote to the next quote of the
same kind, and a quote without a partner is a plain byte.
-/

namespace StyleIndex

/-- The number of bytes of `rest` that a quotation opened just before it takes, its closing
quote included; zero when the quote has no partner. -/
def quotationExtra (q : UInt8) (rest : Text) : Nat :=
  match Text.byteIndex? q rest with
  | some i => i + 1
  | none => 0

/-- Whether `c` opens a bracket or a brace. -/
def isOpener (c : UInt8) : Bool := c == Ascii.lparen || c == Ascii.lbracket || c == Ascii.lbrace

/-- Whether `c` closes a bracket or a brace. -/
def isCloser (c : UInt8) : Bool := c == Ascii.rparen || c == Ascii.rbracket || c == Ascii.rbrace

/-- The offsets of the separators `sep` at nesting depth zero, where the text starts at offset
`pos` and at nesting depth `depth`. The depth falls below zero after a closer too many. -/
def separatorOffsets (sep : UInt8) (depth : Int) (pos : Nat) : Text → List Nat
  | [] => []
  | c :: rest =>
    if Ascii.isQuote c then
      let n := quotationExtra c rest
      separatorOffsets sep depth (pos + 1 + n) (rest.drop n)
    else if isOpener c then separatorOffsets sep (depth + 1) (pos + 1) rest
    else if isCloser c then separatorOffsets sep (depth - 1) (pos + 1) rest
    else if c = sep ∧ depth = 0 then pos :: separatorOffsets sep depth (pos + 1) rest
    else separatorOffsets sep depth (pos + 1) rest
termination_by t => t.length
decreasing_by all_goals (simp only [List.length_drop, List.length_cons]; omega)

/-- The number of separators at nesting depth zero. -/
def countTopLevel (t : Text) (sep : UInt8) : Nat := (separatorOffsets sep 0 0 t).length

/-- A part of a text together with its offset. -/
structure Piece where
  offset : Nat
  text : Text
  deriving DecidableEq

/-- The pieces of `t` from offset `start` on, given the offsets of the separators. -/
def piecesAt (t : Text) (start : Nat) : List Nat → List Piece
  | [] => [⟨start, t.drop start⟩]
  | i :: rest => ⟨start, t.slice start i⟩ :: piecesAt t (i + 1) rest

/-- The pieces of `t` between its top-level separators; one more than there are separators. -/
def topLevelPieces (t : Text) (sep : UInt8) : List Piece :=
  piecesAt t 0 (separatorOffsets sep 0 0 t)

/-- The parts before and after the first top-level separator. -/
def splitTopLevel? (t : Text) (sep : UInt8) : Option (Text × Text) :=
  (separatorOffsets sep 0 0 t).head?.map fun i => (t.take i, t.drop (i + 1))

/-- The offset of the parenthesis that closes the innermost of `depth` open ones, in a text
that starts just after an opening one. -/
def closingParen? (depth : Nat) : Text → Option Nat
  | [] => none
  | c :: rest =>
    if Ascii.isQuote c then
      let n := quotationExtra c rest
      (closingParen? depth (rest.drop n)).map (· + (n + 1))
    else if c = Ascii.lparen then (closingParen? (depth + 1) rest).map (· + 1)
    else if c = Ascii.rparen then
      if depth = 1 then some 0 else (closingParen? (depth - 1) rest).map (· + 1)
    else (closingParen? depth rest).map (· + 1)
termination_by t => t.length
decreasing_by all_goals (simp only [List.length_drop, List.length_cons]; omega)

/-- The text between an opening parenthesis, which stands just before `t`, and the one that
closes it. -/
def parenthesised? (t : Text) : Option Text := (closingParen? 1 t).map (t.take ·)

end StyleIndex
