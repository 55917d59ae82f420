import StyleIndex.Text.Basic

set_option autoImplicit false

/-! # Tokens of a stylesheet

A stylesheet is cut into tokens: white space, comments, string literals, interpolations
`#{…}`, brackets, the three marks `;`, `{` and `}` that bound statements, and single plain
bytes for all the rest. The tokens concatenate to the text they were cut from.

What a byte means depends on one thing only, the number of brackets `(` and `[` that are open.
Inside brackets `//` starts no comment and the marks `;`, `{`, `}` are plain bytes; literals,
interpolations and `/*` comments are the same everywhere.

Cutting stops at the first place where no token can be cut: a literal, a comment or an
interpolation without an end, or a closing bracket with no bracket open.
-/

namespace StyleIndex

/-- Why a text is not a stylesheet. -/
inductive Fault where
  | unexpected (byte : UInt8)
  | unterminatedString
  | unterminatedComment
  | unterminatedInterpolation
  | unclosedBlock
  | unclosedParenthesis
  deriving DecidableEq

/-- The wording of a fault. -/
def Fault.message : Fault → Text
  | .unexpected c => text "unexpected '" ++ [c] ++ text "'"
  | .unterminatedString => text "unterminated string"
  | .unterminatedComment => text "unterminated comment"
  | .unterminatedInterpolation => text "unterminated interpolation"
  | .unclosedBlock => text "unclosed block"
  | .unclosedParenthesis => text "unclosed parenthesis"

/-- A fault and the offset of the construct at fault. -/
structure SyntaxError where
  offset : Nat
  fault : Fault
  deriving DecidableEq

/-- The wording of a syntax error. -/
def SyntaxError.message (e : SyntaxError) : Text :=
  text "scss: offset " ++ Text.ofNat e.offset ++ text ": " ++ e.fault.message

/-- The same error in a text that starts `n` bytes earlier. -/
def SyntaxError.shift (n : Nat) (e : SyntaxError) : SyntaxError := { e with offset := n + e.offset }

/-- What a token is. -/
inductive TokenKind where
  | space
  | lineComment
  | blockComment
  | literal
  | interpolation
  | opening
  | closing
  | semicolon
  | blockOpen
  | blockClose
  | plain
  deriving DecidableEq

/-- A token: its kind and its bytes. -/
structure Token where
  kind : TokenKind
  text : Text
  deriving DecidableEq

namespace Token

/-! ## Lexemes of more than one byte -/

/-- The length of a string literal without its opening quote `q`, the closing quote included.
A backslash takes the next byte with it; a bare line feed ends the search. -/
def literalLength? (q : UInt8) : Text → Option Nat
  | [] => none
  | c :: rest =>
    if c = Ascii.backslash then
      match rest with
      | [] => none
      | _ :: after => (literalLength? q after).map (· + 2)
    else if c = Ascii.lf then none
    else if c = q then some 1
    else (literalLength? q rest).map (· + 1)

/-- Where an interpolation ends. -/
inductive InterpolationEnd where
  /-- It is closed after this many bytes. -/
  | closed (length : Nat)
  /-- A literal that starts after this many bytes has no end. -/
  | openLiteral (offset : Nat)
  /-- Its braces never balance. -/
  | missing
  deriving DecidableEq

/-- The same end seen from `n` bytes earlier. -/
def InterpolationEnd.shift (n : Nat) : InterpolationEnd → InterpolationEnd
  | .closed length => .closed (n + length)
  | .openLiteral offset => .openLiteral (n + offset)
  | .missing => .missing

/-- Finds the end of an interpolation from just after its `#`, with `depth` braces open. Only
braces and string literals count. -/
def interpolationEnd (depth : Nat) : Text → InterpolationEnd
  | [] => .missing
  | c :: rest =>
    if Ascii.isQuote c then
      match literalLength? c rest with
      | some n => (interpolationEnd depth (rest.drop n)).shift (n + 1)
      | none => .openLiteral 0
    else if c = Ascii.lbrace then (interpolationEnd (depth + 1) rest).shift 1
    else if c = Ascii.rbrace then
      if depth = 1 then .closed 1 else (interpolationEnd (depth - 1) rest).shift 1
    else (interpolationEnd depth rest).shift 1
termination_by t => t.length
decreasing_by all_goals (simp only [List.length_drop, List.length_cons]; omega)

/-- The length of a line comment: up to and including its line feed, or to the end. -/
def lineLength (t : Text) : Nat :=
  match Text.byteIndex? Ascii.lf t with
  | some i => i + 1
  | none => t.length

/-! ## One token -/

/-- A token to be cut from the front of a text: its kind and the number of bytes that follow
its first byte. -/
structure Lexeme where
  kind : TokenKind
  extra : Nat
  deriving DecidableEq

/-- The token at the front of the text `c :: rest` with `depth` brackets open. The offset of an
error is relative to this place. -/
def next (depth : Nat) (c : UInt8) (rest : Text) : Except SyntaxError Lexeme :=
  if Ascii.isQuote c then
    match literalLength? c rest with
    | some n => .ok ⟨.literal, n⟩
    | none => .error ⟨0, .unterminatedString⟩
  else if c = Ascii.hash ∧ rest.head? = some Ascii.lbrace then
    match interpolationEnd 0 rest with
    | .closed n => .ok ⟨.interpolation, n⟩
    | .openLiteral i => .error ⟨i + 1, .unterminatedString⟩
    | .missing => .error ⟨0, .unterminatedInterpolation⟩
  else if c = Ascii.slash ∧ rest.head? = some Ascii.star then
    match Text.indexOf? [Ascii.star, Ascii.slash] rest.tail with
    | some i => .ok ⟨.blockComment, i + 3⟩
    | none => .error ⟨0, .unterminatedComment⟩
  else if c = Ascii.slash ∧ rest.head? = some Ascii.slash ∧ depth = 0 then
    .ok ⟨.lineComment, lineLength rest⟩
  else if c = Ascii.lparen ∨ c = Ascii.lbracket then .ok ⟨.opening, 0⟩
  else if c = Ascii.rparen ∨ c = Ascii.rbracket then
    if depth = 0 then .error ⟨0, .unexpected c⟩ else .ok ⟨.closing, 0⟩
  else if c = Ascii.semicolon ∧ depth = 0 then .ok ⟨.semicolon, 0⟩
  else if c = Ascii.lbrace ∧ depth = 0 then .ok ⟨.blockOpen, 0⟩
  else if c = Ascii.rbrace ∧ depth = 0 then .ok ⟨.blockClose, 0⟩
  else if Ascii.isSpace c then .ok ⟨.space, 0⟩
  else .ok ⟨.plain, 0⟩

/-- The number of open brackets after a token of the given kind. -/
def depthAfter (depth : Nat) : TokenKind → Nat
  | .opening => depth + 1
  | .closing => depth - 1
  | _ => depth

end Token

/-! ## All tokens -/

/-- How the cutting of a text ended. -/
inductive LexingEnd where
  /-- The whole text was cut; this many brackets are still open. -/
  | complete (depth : Nat)
  /-- No token could be cut; the offset counts from the end of the last token. -/
  | stuck (error : SyntaxError)
  deriving DecidableEq

/-- The tokens of a text, and how the cutting ended. -/
structure Lexing where
  tokens : List Token
  ending : LexingEnd

/-- Cuts a text into tokens, starting with `depth` brackets open. -/
def tokenize (depth : Nat) : Text → Lexing
  | [] => ⟨[], .complete depth⟩
  | c :: rest =>
    match Token.next depth c rest with
    | .error e => ⟨[], .stuck e⟩
    | .ok ⟨kind, extra⟩ =>
      let after := tokenize (Token.depthAfter depth kind) (rest.drop extra)
      ⟨⟨kind, c :: rest.take extra⟩ :: after.tokens, after.ending⟩
termination_by t => t.length
decreasing_by simp only [List.length_drop, List.length_cons]; omega

end StyleIndex
