import StyleIndex.Stylesheet.Node
import StyleIndex.Stylesheet.Pieces
import StyleIndex.Text.Blank
import StyleIndex.Text.Case

set_option autoImplicit false

/-! # From the text of a statement to its head

The *prelude* of a statement is its text up to the terminator, without the white space at its
end. This file decides what a prelude declares. Every offset it records is the offset of the
statement plus an offset into the prelude.
-/

namespace StyleIndex

/-- Whether `c` can stand in a name. Every byte above ASCII can. -/
def isNameByte (c : UInt8) : Bool :=
  c == Ascii.hyphen || c == Ascii.underscore || Ascii.isAlpha c || Ascii.isDigit c || 0x80 ≤ c

/-! ## Variables -/

/-- Takes a flag off the end of a value, if it stands there in any case. -/
def stripFlag? (flag : Flag) (value : Text) : Option Text :=
  let n := value.length - flag.word.length
  if flag.word.length ≤ value.length ∧ Text.equalsIgnoringCase (value.drop n) flag.word then
    some (Text.trimBlank (value.take n))
  else none

/-- Each flag has at least one byte. -/
theorem Flag.word_length_pos (flag : Flag) : 0 < flag.word.length := by
  cases flag <;> decide

/-- Taking a flag off shortens the value. -/
theorem stripFlag?_length_lt {flag : Flag} {value rest : Text}
    (h : stripFlag? flag value = some rest) : rest.length < value.length := by
  unfold stripFlag? at h
  simp only at h
  split at h
  · next hc =>
    cases h
    have hpos := flag.word_length_pos
    have htrim := Text.length_trimBlank_le (value.take (value.length - flag.word.length))
    simp only [List.length_take] at htrim
    omega
  · cases h

/-- Takes all flags off the end of a value: the value without them, and the flags from the
last one on. -/
def stripFlags (value : Text) : Text × List Flag :=
  match _h : stripFlag? .default value with
  | some rest =>
    let (value', flags) := stripFlags rest
    (value', .default :: flags)
  | none =>
    match _h' : stripFlag? .global value with
    | some rest =>
      let (value', flags) := stripFlags rest
      (value', .global :: flags)
    | none => (value, [])
termination_by value.length
decreasing_by all_goals exact stripFlag?_length_lt (by assumption)

/-- Reads `$name: value` from what follows the `$`: the name without its `$`, and what follows
the colon. -/
def splitBinding? (t : Text) : Option (Text × Text) :=
  let name := t.takeWhile isNameByte
  match Text.trimSpaceStart (t.dropWhile isNameByte) with
  | Ascii.colon :: value => if name.isEmpty then none else some (name, value)
  | _ => none

/-! ## Parameters -/

/-- Reads one piece of a parameter list that starts at offset `base`; a blank piece declares
nothing. The default follows the first top-level colon. -/
def paramOfPiece? (base : Nat) (piece : Piece) : Option Param :=
  let trimmed := Text.trimBlank piece.text
  if trimmed.isEmpty then none
  else
    let offset := base + piece.offset + (Text.indexOf? trimmed piece.text).getD 0
    match splitTopLevel? trimmed Ascii.colon with
    | some (name, default) => some ⟨Text.trimBlank name, Text.trimBlank default, offset⟩
    | none => some ⟨trimmed, [], offset⟩

/-- Reads the text of a parameter list that starts at offset `base`. -/
def readParams (list : Text) (base : Nat) : List Param :=
  (topLevelPieces list Ascii.comma).filterMap (paramOfPiece? base)

/-! ## Import targets -/

/-- Whether the text starts with `url(` in any case. -/
def startsWithUrl (t : Text) : Bool := Text.startsWith (Text.toLower t) (text "url(")

/-- Reads one import target from a text without leading white space that starts at offset
`offset`: a quotation, `url(…)`, or else the first word. -/
def targetOf? (item : Text) (offset : Nat) : Option ImportTarget :=
  match item with
  | [] => none
  | c :: rest =>
    if Ascii.isQuote c then
      (Text.byteIndex? c rest).map fun i => ⟨rest.take i, offset + 1, false⟩
    else if startsWithUrl item then
      (parenthesised? (item.drop 4)).map fun inner =>
        let path := Text.trimEndWhile Ascii.isQuote ((Text.trimBlank inner).dropWhile Ascii.isQuote)
        ⟨path, offset + 4, true⟩
    else
      let word := Text.firstWord item
      if word.isEmpty then none else some ⟨word, offset, false⟩

/-- Reads one piece of an import list that starts at offset `base`. -/
def targetOfPiece? (base : Nat) (piece : Piece) : Option ImportTarget :=
  let item := Text.trimSpaceStart piece.text
  targetOf? item (base + piece.offset + (piece.text.length - item.length))

/-- Reads the targets of an import statement. Only `@import` takes a list; the other two read
the first piece and nothing else. -/
def readTargets (keyword : ImportKeyword) (list : Text) (base : Nat) : List ImportTarget :=
  let pieces := topLevelPieces list Ascii.comma
  match keyword with
  | .importRule => pieces.filterMap (targetOfPiece? base)
  | _ => (pieces.take 1).filterMap (targetOfPiece? base)

/-! ## At-rules -/

/-- Whether `c` can stand in the name after `@include`, which may be qualified. -/
def isQualifiedByte (c : UInt8) : Bool := isNameByte c || c == Ascii.dot

/-- The declaration of a mixin or function from what follows the keyword and its white space,
which starts at offset `base`. -/
def readCallable (kind : CallableKind) (t : Text) (base : Nat) : Form :=
  let name := t.takeWhile isNameByte
  let afterName := t.dropWhile isNameByte
  let list := Text.trimSpaceStart afterName
  let params := match list with
    | Ascii.lparen :: rest =>
      match parenthesised? rest with
      | some inner => readParams inner (base + (t.length - rest.length))
      | none => []
    | _ => []
  .callable kind name base params

/-- The name after `@include`, from what follows the keyword and its white space, which starts
at offset `base`. Only the part after the last dot is the name. -/
def readInclusion (t : Text) (base : Nat) : Form :=
  let qualified := t.takeWhile isQualifiedByte
  match Text.lastByteIndex? Ascii.dot qualified with
  | some i => .inclusion (qualified.drop (i + 1)) (base + (i + 1))
  | none => .inclusion qualified base

/-- The form of an at-rule from what follows its `@`, which stands at offset `start`. -/
def readAtRule (t : Text) (start : Nat) : Form :=
  let keyword := Text.toLower (t.takeWhile isNameByte)
  let rest := Text.trimSpaceStart (t.dropWhile isNameByte)
  let base := start + 1 + (t.length - rest.length)
  if keyword = text "mixin" then readCallable .mixin rest base
  else if keyword = text "function" then readCallable .function rest base
  else if keyword = text "include" then readInclusion rest base
  else if keyword = text "import" then
    .importing .importRule (readTargets .importRule rest base)
  else if keyword = text "use" then .importing .useRule (readTargets .useRule rest base)
  else if keyword = text "forward" then
    .importing .forwardRule (readTargets .forwardRule rest base)
  else .atRule keyword

/-! ## Statements -/

/-- The head of the statement that starts at offset `start` with the given text up to its
terminator; `block` says whether the terminator is an opening brace. A variable is never a
block. -/
def readHead (start : Nat) (raw : Text) (block : Bool) : Head :=
  let prelude := Text.trimSpaceEnd raw
  let other : Head := ⟨start, if block then .ruleset else .declaration, prelude⟩
  match prelude with
  | Ascii.dollar :: rest =>
    if block then other
    else match splitBinding? rest with
      | some (name, after) =>
        let (value, flags) := stripFlags (Text.trimBlank after)
        ⟨start, .binding (Ascii.dollar :: name) flags, value⟩
      | none => other
  | Ascii.atSign :: rest => ⟨start, readAtRule rest start, prelude⟩
  | _ => other

end StyleIndex
