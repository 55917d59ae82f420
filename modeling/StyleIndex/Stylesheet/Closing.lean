import StyleIndex.Stylesheet.Pieces

set_option autoImplicit false

/-! # Closing what a text leaves open

While a stylesheet is being typed, the text before the cursor seldom parses. `closeOpen`
appends what closes the constructs it leaves open: the end of a comment or literal, then the
closers of the open brackets, interpolations and blocks, innermost first.

The scan keeps a stack of openers and knows whether it stands in a comment or a literal. A
closer that does not fit the innermost opener is passed over.
-/

namespace StyleIndex

/-- What the scan stands in. -/
inductive ScanMode where
  | code
  | lineComment
  | blockComment
  | literal (quote : UInt8)
  deriving DecidableEq

/-- The closer of an opener. -/
def closerOf (opener : UInt8) : UInt8 :=
  if opener = Ascii.lparen then Ascii.rparen
  else if opener = Ascii.lbracket then Ascii.rbracket
  else Ascii.rbrace

/-- What the scan has found: the mode it stands in and the open openers, innermost first. -/
structure OpenConstructs where
  mode : ScanMode
  openers : List UInt8
  deriving DecidableEq

namespace OpenConstructs

/-- Nothing is open. -/
def none : OpenConstructs := ⟨.code, []⟩

/-- Whether `//` starts a comment here: only outside brackets. -/
def lineCommentsAllowed (s : OpenConstructs) : Bool :=
  match s.openers with
  | [] => true
  | o :: _ => o == Ascii.lbrace

/-- Meets a closer. -/
def close (s : OpenConstructs) (c : UInt8) : OpenConstructs :=
  match s.openers with
  | [] => s
  | o :: openers => if closerOf o = c then { s with openers := openers } else s

/-- What one byte does, given the byte after it: the new state, and whether the byte after it
has been used as well. -/
def step (s : OpenConstructs) (c : UInt8) (after : Option UInt8) : OpenConstructs × Bool :=
  match s.mode with
  | .lineComment => (if c = Ascii.lf then { s with mode := .code } else s, false)
  | .blockComment =>
    if c = Ascii.star ∧ after = some Ascii.slash then ({ s with mode := .code }, true)
    else (s, false)
  | .literal q =>
    if c = Ascii.backslash then (s, true)
    else (if c = q ∨ c = Ascii.lf then { s with mode := .code } else s, false)
  | .code =>
    if Ascii.isQuote c then ({ s with mode := .literal c }, false)
    else if c = Ascii.slash ∧ after = some Ascii.star then ({ s with mode := .blockComment }, true)
    else if c = Ascii.slash ∧ after = some Ascii.slash ∧ s.lineCommentsAllowed then
      ({ s with mode := .lineComment }, true)
    else if c = Ascii.hash ∧ after = some Ascii.lbrace then
      ({ s with openers := Ascii.lbrace :: s.openers }, true)
    else if isOpener c then ({ s with openers := c :: s.openers }, false)
    else if isCloser c then (s.close c, false)
    else (s, false)

/-- Scans a text. -/
def scan (s : OpenConstructs) : Text → OpenConstructs
  | [] => s
  | [c] => (s.step c Option.none).1
  | c :: d :: rest =>
    match s.step c (some d) with
    | (s', true) => scan s' rest
    | (s', false) => scan s' (d :: rest)

/-- What closes the open constructs. -/
def closers (s : OpenConstructs) : Text :=
  let first := match s.mode with
    | .code => []
    | .lineComment => [Ascii.lf]
    | .blockComment => [Ascii.star, Ascii.slash]
    | .literal q => [q]
  first ++ s.openers.map closerOf

end OpenConstructs

/-- The constructs that a text leaves open. -/
def openConstructs (src : Text) : OpenConstructs := OpenConstructs.none.scan src

/-- The text followed by what closes its open constructs. -/
def closeOpen (src : Text) : Text := src ++ (openConstructs src).closers

end StyleIndex
