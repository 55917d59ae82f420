import StyleIndex.Data.Yaml.Flow

set_option autoImplicit false

/-! # Reading YAML

The part of YAML that settings are written in: objects and lists laid out by indentation, values
in flow notation, plain and quoted scalars, comments. Anchors, tags and literal blocks are not
read.
-/

namespace StyleIndex

namespace Yaml

/-! ## Lines -/

/-- Every line break as a line feed. -/
def normalizeBreaks : Text → Text
  | [] => []
  | 0x0d :: 0x0a :: rest => Ascii.lf :: normalizeBreaks rest
  | 0x0d :: rest => Ascii.lf :: normalizeBreaks rest
  | c :: rest => c :: normalizeBreaks rest

/-- Whether a line has no content: white space, or a comment. -/
def isEmptyLine (line : Text) : Bool :=
  match line.dropWhile isBlank with
  | [] => true
  | c :: _ => c == Ascii.hash

/-- Whether a line starts with a mark of three bytes that stands alone. -/
def isMarker (mark line : Text) : Bool :=
  Text.startsWith line mark && (line.drop mark.length).head?.all isBlank

/-- Whether a line ends the document. -/
def endsDocument (line : Text) : Bool :=
  isMarker (text "---") line || isMarker (text "...") line

/-- The first line with content: its indentation, its content, and the lines after it. -/
def nextLine : List Text → Option (Nat × Text × List Text)
  | [] => none
  | line :: rest =>
    if isEmptyLine line then nextLine rest
    else if endsDocument line then none
    else
      let content := line.dropWhile (· == Ascii.space)
      some (line.length - content.length, content, rest)

/-- Whether the content of a line is an item of a list. -/
def isItem (content : Text) : Bool :=
  match content with
  | Ascii.hyphen :: rest => rest.head?.all isBlank
  | _ => false

/-- The offset of the colon that ends a plain name; a comment ends the search. -/
def nameEnd? : Text → Option Nat
  | [] => none
  | c :: rest =>
    if c = Ascii.colon ∧ rest.head?.all isBlank then some 0
    else if isBlank c ∧ rest.head? = some Ascii.hash then none
    else (nameEnd? rest).map (· + 1)

/-- Splits the content of a line into a name and the text after its colon. -/
def splitName? (content : Text) : Option (Text × Text) :=
  if content.head?.any Ascii.isQuote then do
    let (name, after) ← readQuoted content
    match after.dropWhile isBlank with
    | Ascii.colon :: rest => if rest.head?.all isBlank then return (name, rest) else none
    | _ => none
  else
    match content with
    | [] => none
    | c :: rest =>
      if startsPlain c rest.head? then
        (nameEnd? content).map fun i => (trim (content.take i), content.drop (i + 1))
      else none

/-- The content of a line up to its comment. -/
def dropComment : Text → Text
  | [] => []
  | c :: rest => if isBlank c ∧ rest.head? = some Ascii.hash then [] else c :: dropComment rest

/-! ## Values on a line -/

/-- The lines after the first of a plain scalar: those that directly follow and are indented
deeper than `indent`, and the lines after them. -/
def continuation (indent : Nat) : List Text → List Text × List Text
  | [] => ([], [])
  | line :: rest =>
    let content := line.dropWhile (· == Ascii.space)
    if isEmptyLine line ∨ line.length - content.length ≤ indent ∨ endsDocument line then
      ([], line :: rest)
    else
      let (lines, after) := continuation indent rest
      (trim (dropComment content) :: lines, after)

/-- A value that starts on a line, given the rest of that line and the lines after it. -/
def readInline (indent : Nat) (first : Text) (rest : List Text) : Option (Value × List Text) :=
  match first with
  | [] => none
  | c :: tail =>
    if c = Ascii.lbracket ∨ c = Ascii.lbrace ∨ Ascii.isQuote c then do
      let whole := Text.join [Ascii.lf] (first :: rest)
      let (v, after) ← readFlow (whole.length + 1) whole
      match Text.splitOn Ascii.lf after with
      | [] => return (v, [])
      | line :: lines => if isEmptyLine line then return (v, lines) else none
    else if startsPlain c tail.head? then
      let (more, after) :=
        if (dropComment first).length < first.length then ([], rest) else continuation indent rest
      let lines := trim (dropComment first) :: more
      if lines.any fun l => (nameEnd? l).isSome then none
      else some (resolve (foldLines lines), after)
    else none

/-! ## Blocks -/

mutual

/-- The value whose first line has the given indentation. -/
def readBlock : (limit : Nat) → (indent : Nat) → List Text → Option (Value × List Text)
  | 0, _, _ => none
  | limit + 1, indent, lines => do
    let (_, content, rest) ← nextLine lines
    if isItem content then
      let (items, after) ← readItems limit indent lines
      return (.list items, after)
    else if (splitName? content).isSome then
      let (fields, after) ← readFields limit indent lines
      return (.object fields, after)
    else readInline (indent - 1) content rest

/-- The value after a name or a list mark: on the same line, or in a block below it. A list may
stand at the indentation of the name it belongs to. -/
def readEntry : (limit : Nat) → (indent : Nat) → (listBelow : Bool) → Text → List Text →
    Option (Value × List Text)
  | 0, _, _, _, _ => none
  | limit + 1, indent, listBelow, first, rest =>
    match first.dropWhile isBlank with
    | [] => below limit indent listBelow rest
    | c :: tail =>
      if c = Ascii.hash then below limit indent listBelow rest
      else readInline indent (c :: tail) rest

/-- The value in a block below a line with the given indentation. -/
def below : (limit : Nat) → (indent : Nat) → (listBelow : Bool) → List Text →
    Option (Value × List Text)
  | 0, _, _, _ => none
  | limit + 1, indent, listBelow, lines =>
    match nextLine lines with
    | none => some (.null, lines)
    | some (i, content, _) =>
      if indent < i ∨ (listBelow ∧ i = indent ∧ isItem content) then readBlock limit i lines
      else some (.null, lines)

/-- The items of a list at the given indentation, and the lines after it. -/
def readItems : (limit : Nat) → (indent : Nat) → List Text → Option (List Value × List Text)
  | 0, _, _ => none
  | limit + 1, indent, lines =>
    match nextLine lines with
    | none => some ([], [])
    | some (i, content, rest) =>
      if i < indent ∨ (i = indent ∧ ¬ isItem content) then some ([], lines)
      else if indent < i then none
      else do
        let item := content.drop 1
        let (v, after) ←
          if isEmptyLine item then below limit indent false rest
          else
            let inner := item.dropWhile isBlank
            let column := indent + 1 + (item.length - inner.length)
            readBlock limit column ((List.replicate column Ascii.space ++ inner) :: rest)
        let (items, after) ← readItems limit indent after
        return (v :: items, after)

/-- The fields of an object at the given indentation, and the lines after it. A name may occur
only once. -/
def readFields : (limit : Nat) → (indent : Nat) → List Text →
    Option (List (Text × Value) × List Text)
  | 0, _, _ => none
  | limit + 1, indent, lines =>
    match nextLine lines with
    | none => some ([], [])
    | some (i, content, rest) =>
      if i < indent then some ([], lines)
      else if indent < i then none
      else do
        let (name, value) ← splitName? content
        let (v, after) ← readEntry limit indent true value rest
        let (fields, after) ← readFields limit indent after
        if fields.any fun f => f.1 == name then none else return ((name, v) :: fields, after)

end

/-- Whether a code point may occur in a document. -/
def isAllowed (c : Nat) : Bool :=
  c == 0x09 || c == 0x0a || c == 0x0d || (0x20 ≤ c && c ≤ 0x7e) || c == 0x85 ||
    (0xa0 ≤ c && c ≤ 0xd7ff) || (0xe000 ≤ c && c ≤ 0xfffd) || (0x10000 ≤ c && c ≤ 0x10ffff)

/-- The lines of a document without the mark that starts it. -/
def documentLines (t : Text) : List Text :=
  let lines := (Text.splitOn Ascii.lf (normalizeBreaks t)).dropWhile isEmptyLine
  match lines with
  | [] => []
  | line :: rest => if isMarker (text "---") line then line.drop 3 :: rest else line :: rest

end Yaml

/-- The mark of the byte order that may stand in front of a text. -/
def Yaml.byteOrderMark : Text := [0xef, 0xbb, 0xbf]

/-- The value of a YAML text; an empty document is no value. Every nested value takes a byte or a
line, so the length of the text bounds the nesting. -/
def Value.ofYaml? (t : Text) : Option Value :=
  let t := t.dropStart Yaml.byteOrderMark
  if !Utf8.isValid t || !(Utf8.characters t).all fun r => Yaml.isAllowed (Utf8.code r) then none
  else
    let lines := Yaml.documentLines t
    match Yaml.nextLine lines with
    | none => some .null
    | some (indent, _, _) => do
      let (v, rest) ← Yaml.readBlock (4 * t.length + 4) indent lines
      if (Yaml.nextLine rest).isSome then none else return v

end StyleIndex
