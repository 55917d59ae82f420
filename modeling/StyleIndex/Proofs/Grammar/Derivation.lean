import StyleIndex.Stylesheet.Parse

set_option autoImplicit false

/-! # The grammar of stylesheets

A grammar for the texts that are stylesheets, with its derivations as data. A *body*, of a
block or of the whole text, is a row of white space, comments, extra semicolons and statements.
A statement has a *prelude*, a row of literals, interpolations, comments, brackets and plain
bytes, and ends with a semicolon, with a block, or with its body.

Derivations are plain trees. `text` spells a derivation out, `nodes` gives the statement tree it
stands for, and `WellFormed` says which derivations the grammar has. What may stand at a place
depends on what follows: a slash is a plain byte only if no star follows it, and a line comment
without a line feed ends the whole text. So `WellFormed` takes the text `after` the derivation
as an argument.

`Proofs/Grammar/Acceptance.lean` compares the grammar with the parser.
-/

namespace StyleIndex

/-! ## Literals -/

/-- A byte of a string literal, or a byte behind a backslash. -/
inductive LiteralPart where
  | byte (c : UInt8)
  | escaped (c : UInt8)

/-- A string literal: its quote and what stands between the two quotes. -/
structure Literal where
  quote : UInt8
  parts : List LiteralPart

namespace LiteralPart

def text : LiteralPart → Text
  | .byte c => [c]
  | .escaped c => [Ascii.backslash, c]

/-- Whether a part may stand between quotes `q`. Only behind a backslash there may be the quote
itself or a line feed. -/
def WellFormed (q : UInt8) : LiteralPart → Prop
  | .byte c => c ≠ q ∧ c ≠ Ascii.backslash ∧ c ≠ Ascii.lf
  | .escaped _ => True

end LiteralPart

namespace Literal

def text (l : Literal) : Text := l.quote :: (l.parts.flatMap LiteralPart.text ++ [l.quote])

def WellFormed (l : Literal) : Prop :=
  Ascii.isQuote l.quote = true ∧ ∀ p ∈ l.parts, p.WellFormed l.quote

end Literal

/-! ## Interpolations -/

/-- What stands between the braces of an interpolation: bytes, literals, and more braces. -/
inductive Interpolation where
  | done
  | byte (c : UInt8) (rest : Interpolation)
  | literal (l : Literal) (rest : Interpolation)
  | braces (inner rest : Interpolation)

namespace Interpolation

def text : Interpolation → Text
  | .done => []
  | .byte c rest => c :: rest.text
  | .literal l rest => l.text ++ rest.text
  | .braces inner rest => Ascii.lbrace :: (inner.text ++ Ascii.rbrace :: rest.text)

/-- Braces balance, and quotes stand in literals only. Nothing else has a meaning here. -/
def WellFormed : Interpolation → Prop
  | .done => True
  | .byte c rest =>
      (Ascii.isQuote c = false ∧ c ≠ Ascii.lbrace ∧ c ≠ Ascii.rbrace) ∧ rest.WellFormed
  | .literal l rest => l.WellFormed ∧ rest.WellFormed
  | .braces inner rest => inner.WellFormed ∧ rest.WellFormed

end Interpolation

/-! ## Comments -/

/-- `t` is what stands between `/*` and the first `*/` behind it. -/
def IsCommentText (t : Text) : Prop := ¬ [Ascii.star, Ascii.slash] <:+: t ++ [Ascii.star]

/-- `t` is what follows `//`: up to and including a line feed, or all there is. -/
def IsRestOfLine (t after : Text) : Prop :=
  (∃ u, t = u ++ [Ascii.lf] ∧ Ascii.lf ∉ u) ∨ (Ascii.lf ∉ t ∧ after = [])

/-! ## Preludes -/

/-- A unit of a prelude. -/
inductive PreludePart where
  | literal (l : Literal)
  | interpolation (i : Interpolation)
  | blockComment (t : Text)
  | lineComment (t : Text)
  | opening (c : UInt8)
  | closing (c : UInt8)
  | byte (c : UInt8)

namespace PreludePart

def text : PreludePart → Text
  | .literal l => l.text
  | .interpolation i => Ascii.hash :: Ascii.lbrace :: (i.text ++ [Ascii.rbrace])
  | .blockComment t => Ascii.slash :: Ascii.star :: (t ++ [Ascii.star, Ascii.slash])
  | .lineComment t => Ascii.slash :: Ascii.slash :: t
  | .opening c => [c]
  | .closing c => [c]
  | .byte c => [c]

/-- The number of open brackets after a unit. -/
def depthAfter (depth : Nat) : PreludePart → Nat
  | .opening _ => depth + 1
  | .closing _ => depth - 1
  | _ => depth

/-- Whether `c` is a unit of its own with `depth` brackets open and the text `after` behind it:
it begins none of the other units, and it is a mark `;`, `{`, `}` only inside brackets. -/
structure IsPlain (depth : Nat) (after : Text) (c : UInt8) : Prop where
  not_quote : Ascii.isQuote c = false
  not_bracket : c ≠ Ascii.lparen ∧ c ≠ Ascii.lbracket ∧ c ≠ Ascii.rparen ∧ c ≠ Ascii.rbracket
  not_interpolation : ¬ (c = Ascii.hash ∧ after.head? = some Ascii.lbrace)
  not_blockComment : ¬ (c = Ascii.slash ∧ after.head? = some Ascii.star)
  not_lineComment : ¬ (c = Ascii.slash ∧ after.head? = some Ascii.slash ∧ depth = 0)
  not_mark : depth = 0 → c ≠ Ascii.semicolon ∧ c ≠ Ascii.lbrace ∧ c ≠ Ascii.rbrace

/-- Whether a unit may stand where `depth` brackets are open, with the text `after` behind
it. -/
def WellFormed (depth : Nat) (after : Text) : PreludePart → Prop
  | .literal l => l.WellFormed
  | .interpolation i => i.WellFormed
  | .blockComment t => IsCommentText t
  | .lineComment t => depth = 0 ∧ IsRestOfLine t after
  | .opening c => c = Ascii.lparen ∨ c = Ascii.lbracket
  | .closing c => (c = Ascii.rparen ∨ c = Ascii.rbracket) ∧ 0 < depth
  | .byte c => IsPlain depth after c

end PreludePart

/-- The units of a statement up to its terminator. -/
abbrev Prelude := List PreludePart

namespace Prelude

def text (ps : Prelude) : Text := ps.flatMap PreludePart.text

/-- Each unit may stand where it stands, and all brackets are closed at the end. -/
def WellFormed (depth : Nat) (after : Text) : Prelude → Prop
  | [] => depth = 0
  | p :: ps =>
      p.WellFormed depth (text ps ++ after) ∧ WellFormed (p.depthAfter depth) after ps

end Prelude

/-- Whether a statement starts at the front of a text: at any byte but white space, a comment, a
semicolon and a closing brace. -/
def StartsStatement (t : Text) : Prop :=
  ∃ c rest, t = c :: rest ∧ Ascii.isSpace c = false ∧ c ≠ Ascii.semicolon ∧ c ≠ Ascii.rbrace ∧
    ¬ (c = Ascii.slash ∧ (rest.head? = some Ascii.slash ∨ rest.head? = some Ascii.star))

/-! ## Bodies -/

/-- What stands in a block, or in the whole text. The last statement needs no semicolon. -/
inductive Body where
  | done
  | last (ps : Prelude)
  | space (c : UInt8) (rest : Body)
  | lineComment (t : Text) (rest : Body)
  | blockComment (t : Text) (rest : Body)
  | semicolon (rest : Body)
  | leaf (ps : Prelude) (rest : Body)
  | block (ps : Prelude) (inner rest : Body)

namespace Body

def text : Body → Text
  | .done => []
  | .last ps => ps.text
  | .space c rest => c :: rest.text
  | .lineComment t rest => Ascii.slash :: Ascii.slash :: (t ++ rest.text)
  | .blockComment t rest =>
      Ascii.slash :: Ascii.star :: (t ++ Ascii.star :: Ascii.slash :: rest.text)
  | .semicolon rest => Ascii.semicolon :: rest.text
  | .leaf ps rest => ps.text ++ Ascii.semicolon :: rest.text
  | .block ps inner rest =>
      ps.text ++ Ascii.lbrace :: (inner.text ++ Ascii.rbrace :: rest.text)

/-- Whether a body may stand in front of the text `after`. -/
def WellFormed (after : Text) : Body → Prop
  | .done => True
  | .last ps => StartsStatement (ps.text ++ after) ∧ ps.WellFormed 0 after
  | .space c rest => Ascii.isSpace c = true ∧ rest.WellFormed after
  | .lineComment t rest => IsRestOfLine t (rest.text ++ after) ∧ rest.WellFormed after
  | .blockComment t rest => IsCommentText t ∧ rest.WellFormed after
  | .semicolon rest => rest.WellFormed after
  | .leaf ps rest =>
      StartsStatement (ps.text ++ Ascii.semicolon :: (rest.text ++ after)) ∧
        ps.WellFormed 0 (Ascii.semicolon :: (rest.text ++ after)) ∧ rest.WellFormed after
  | .block ps inner rest =>
      StartsStatement (ps.text ++ Ascii.lbrace :: (inner.text ++ Ascii.rbrace ::
          (rest.text ++ after))) ∧
        ps.WellFormed 0 (Ascii.lbrace :: (inner.text ++ Ascii.rbrace :: (rest.text ++ after))) ∧
        inner.WellFormed (Ascii.rbrace :: (rest.text ++ after)) ∧ rest.WellFormed after

/-- The statements of a body that starts at offset `pos`. A statement stops just past its
semicolon or its closing brace, and the last one at the end of the body. -/
def nodes (pos : Nat) : Body → List Node
  | .done => []
  | .last ps => [.leaf (readHead pos ps.text false) (pos + ps.text.length)]
  | .space _ rest => rest.nodes (pos + 1)
  | .lineComment t rest => rest.nodes (pos + (t.length + 2))
  | .blockComment t rest => rest.nodes (pos + (t.length + 4))
  | .semicolon rest => rest.nodes (pos + 1)
  | .leaf ps rest =>
      let stop := pos + ps.text.length + 1
      .leaf (readHead pos ps.text false) stop :: rest.nodes stop
  | .block ps inner rest =>
      let bodyStart := pos + ps.text.length + 1
      let stop := bodyStart + inner.text.length + 1
      .block (readHead pos ps.text true) bodyStart (inner.nodes bodyStart) stop :: rest.nodes stop

/-- `b` derives the whole text `src`. -/
def Derives (b : Body) (src : Text) : Prop := b.text = src ∧ b.WellFormed []

end Body

end StyleIndex
