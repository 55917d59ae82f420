import StyleIndex.Stylesheet.Statement
import StyleIndex.Stylesheet.Token

set_option autoImplicit false

/-! # Parsing

The statement tree is built from the tokens in one pass from left to right. The state of the
pass is the offset reached, the statement being read, the statements finished in the
innermost open block, and the blocks around it.

White space and comments between statements are skipped, and so are extra semicolons. A
statement runs to the first `;`, `{` or `}` outside brackets, or to the end of the text; the
`}` closes the block around the statement.
-/

namespace StyleIndex

/-- A block whose closing brace has not been reached: its head, the offset just past its
opening brace, and the statements before it, last first. -/
structure OpenBlock where
  head : Head
  bodyStart : Nat
  before : List Node

/-- A statement whose terminator has not been reached: its offset and its tokens' texts, last
first. -/
structure OpenStatement where
  start : Nat
  texts : List Text

/-- The text of the statement read so far. -/
def OpenStatement.raw (s : OpenStatement) : Text := s.texts.reverse.flatten

/-- The state of the pass over the tokens. -/
structure ParseState where
  offset : Nat
  statement : Option OpenStatement
  done : List Node
  blocks : List OpenBlock

namespace ParseState

/-- The state before the first token. -/
def initial : ParseState := ⟨0, none, [], []⟩

/-- Ends the current statement, if there is one, as a leaf that stops at offset `stop`. -/
def endLeaf (s : ParseState) (stop : Nat) : ParseState :=
  match s.statement with
  | none => s
  | some st => { s with
      statement := none
      done := .leaf (readHead st.start st.raw false) stop :: s.done }

/-- Opens the block of the current statement; a brace with no statement before it opens a
block with an empty head. -/
def openBlock (s : ParseState) : ParseState :=
  let st := s.statement.getD ⟨s.offset, []⟩
  { s with
    statement := none
    done := []
    blocks := ⟨readHead st.start st.raw true, s.offset + 1, s.done⟩ :: s.blocks }

/-- Closes the innermost block at the current offset. -/
def closeBlock (s : ParseState) : Except SyntaxError ParseState :=
  match s.blocks with
  | [] => .error ⟨s.offset, .unexpected Ascii.rbrace⟩
  | b :: blocks => .ok { s with
      done := .block b.head b.bodyStart s.done.reverse (s.offset + 1) :: b.before
      blocks := blocks }

/-- Adds a token to the current statement, or starts one with it. -/
def addToken (s : ParseState) (t : Token) : ParseState :=
  let st := s.statement.getD ⟨s.offset, []⟩
  { s with statement := some { st with texts := t.text :: st.texts } }

/-- Whether a token of this kind is skipped between statements. -/
def isTrivia : TokenKind → Bool
  | .space => true
  | .lineComment => true
  | .blockComment => true
  | _ => false

/-- The effect of one token, without the advance of the offset. -/
def react (s : ParseState) (t : Token) : Except SyntaxError ParseState :=
  match t.kind with
  | .semicolon => .ok (s.endLeaf (s.offset + 1))
  | .blockOpen => .ok s.openBlock
  | .blockClose => (s.endLeaf s.offset).closeBlock
  | kind => .ok (if s.statement.isNone && isTrivia kind then s else s.addToken t)

/-- The effect of one token. -/
def step (s : ParseState) (t : Token) : Except SyntaxError ParseState :=
  (s.react t).map fun s' => { s' with offset := s.offset + t.text.length }

/-- The tree at the end of the text. A bracket left open is the fault of the statement, a block
left open that of the innermost open block. -/
def finish (s : ParseState) (ending : LexingEnd) : Except SyntaxError (List Node) :=
  match ending with
  | .stuck e => .error (e.shift s.offset)
  | .complete depth =>
    match s.statement, depth with
    | some st, _ + 1 => .error ⟨st.start, .unclosedParenthesis⟩
    | _, _ =>
      match s.blocks with
      | b :: _ => .error ⟨b.head.start, .unclosedBlock⟩
      | [] => .ok (s.endLeaf s.offset).done.reverse

end ParseState

/-- The tree of a text that has been cut into tokens. -/
def Lexing.build (l : Lexing) : Except SyntaxError (List Node) := do
  let s ← l.tokens.foldlM ParseState.step ParseState.initial
  s.finish l.ending

/-- Parses a stylesheet. -/
def parse (src : Text) : Except SyntaxError Stylesheet :=
  (tokenize 0 src).build.map fun children => ⟨src.length, children⟩

end StyleIndex
