import StyleIndex.Editor.Location
import StyleIndex.Editor.Request
import StyleIndex.Settings.Basic

set_option autoImplicit false

/-! # Completion

What is suggested depends on the line up to the cursor: nothing in an import or a comment, only
mixins after `@include`, only variables after `$`, no mixins in a value, and inside a string only
what fits an open interpolation.
-/

namespace StyleIndex

/-- The kinds of symbol that fit at the cursor. -/
structure CompletionContext where
  vars : Bool
  mixins : Bool
  functions : Bool
  deriving DecidableEq

/-! ## The line before the cursor -/

/-- The offset just after the last line break before an offset. -/
def lineStartBefore (t : Text) (offset : Nat) : Nat :=
  ((t.take offset).reverse.dropWhile fun c => c != Ascii.cr && c != Ascii.lf).length

/-- Whether `c` is a word character: an ASCII letter, a digit or an underscore. -/
def isWordByte (c : UInt8) : Bool :=
  Ascii.isAlpha c || Ascii.isDigit c || c == Ascii.underscore

/-- Whether a line starts with the keyword of an import statement. -/
def isImportLine (line : Text) : Bool :=
  let t := line.dropWhile Ascii.isSpace
  [text "@import", text "@use", text "@forward"].any fun word =>
    Text.startsWith t word && !((t.drop word.length).head?.any isWordByte)

/-- Whether a line ends in the name after `@include`, possibly qualified and possibly empty. -/
def endsInInclude (line : Text) : Bool :=
  let isNamePart := fun c => isWordByte c || c == Ascii.hyphen
  let afterKeyword := fun (reversed : Text) =>
    let front := reversed.dropWhile Ascii.isSpace
    front.length < reversed.length && Text.startsWith front (text "@include").reverse
  let reversed := line.reverse.dropWhile isNamePart
  afterKeyword reversed ||
    match reversed with
    | Ascii.dot :: rest =>
      let front := rest.dropWhile isNamePart
      front.length < rest.length && afterKeyword front
    | _ => false

/-- The part of a line from the quote that opens the string in which the line ends. -/
def openString? : Text → Option Text
  | [] => none
  | c :: rest =>
    if Ascii.isQuote c then
      match closingQuote? c rest with
      | some n => openString? (rest.drop n)
      | none => some (c :: rest)
    else openString? rest
termination_by t => t.length
decreasing_by all_goals (simp only [List.length_drop, List.length_cons]; omega)
where
  /-- The number of bytes up to and including the closing quote. -/
  closingQuote? (q : UInt8) : Text → Option Nat
    | [] => none
    | c :: rest =>
      if c = Ascii.backslash then
        match rest with
        | [] => none
        | _ :: after => (closingQuote? q after).map (· + 2)
      else if c = q then some 1
      else (closingQuote? q rest).map (· + 1)

/-- Whether a line has a `//` outside quotations. A quote without a partner ends the search. -/
def hasLineComment : Text → Bool
  | [] => false
  | [_] => false
  | c :: d :: rest =>
    if Ascii.isQuote c then
      match Text.byteIndex? c (d :: rest) with
      | some i => hasLineComment ((d :: rest).drop (i + 1))
      | none => false
    else if c = Ascii.slash ∧ d = Ascii.slash then true
    else hasLineComment (d :: rest)
termination_by t => t.length
decreasing_by all_goals (simp only [List.length_drop, List.length_cons]; omega)

/-- Whether the cursor at an offset is taken to stand in a comment: the last `/*` before it
comes after the last `*/`, or its line has a `//` before it. -/
def inComment (t : Text) (lineStart offset : Nat) : Bool :=
  let before := t.take offset
  let opened := Text.lastIndexOf? [Ascii.slash, Ascii.star] before
  let closed := Text.lastIndexOf? [Ascii.star, Ascii.slash] before
  (match opened, closed with
    | none, _ => false
    | some _, none => true
    | some i, some j => j < i) ||
  hasLineComment (t.slice lineStart offset)

/-! ## The context -/

/-- The context inside a string, from the quote that opens it: only an open interpolation takes
symbols. `before` is the byte before the word at the cursor, on the same line. -/
def stringContext (settings : Settings) (string : Text) (inVariable : Bool)
    (before : Option UInt8) : CompletionContext :=
  match Text.lastIndexOf? [Ascii.hash, Ascii.lbrace] string with
  | none => ⟨false, false, false⟩
  | some i =>
    if (string.drop i).contains Ascii.rbrace then ⟨false, false, false⟩
    else if inVariable then ⟨true, false, false⟩
    else
      let afterSymbol := before.any fun c =>
        c != 0 && settings.suggestFunctionsInStringContextAfterSymbols.contains c
      ⟨true, false, afterSymbol⟩

/-- The context at an offset of a text. -/
def completionContext (settings : Settings) (t : Text) (offset : Nat) : CompletionContext :=
  let lineStart := lineStartBefore t offset
  let line := t.slice lineStart offset
  if isImportLine line || inComment t lineStart offset then ⟨false, false, false⟩
  else
    let front := line.reverse.dropWhile isNameByte
    let inVariable := front.head? == some Ascii.dollar
    let beforeWord := if inVariable then front.tail else front
    match openString? line with
    | some string => stringContext settings string inVariable beforeWord.head?
    | none =>
      if endsInInclude line then ⟨false, true, false⟩
      else if inVariable then ⟨true, false, false⟩
      else if beforeWord.contains Ascii.colon then ⟨true, false, true⟩
      else ⟨true, true, true⟩

/-! ## Suggestions -/

/-- One suggestion. -/
structure CompletionItem where
  label : Text
  kind : SymbolKind
  detail : Text
  documentation : Text
  document : Text
  depth : Nat
  deriving DecidableEq

/-- The suggestion of a visible symbol. A symbol of another document carries the label for
imported symbols, if there is one. -/
def CompletionItem.ofSymbol (settings : Settings) (kind : SymbolKind) (name detail document : Text)
    (depth : Nat) : CompletionItem :=
  let detail := match settings.implicitlyLabel with
    | some label => if 0 < depth then Text.trimBlank (label ++ text " " ++ detail) else detail
    | none => detail
  ⟨name, kind, detail, text "Declared in " ++ Path.base document, document, depth⟩

/-- The first suggestion of each label that is not in `seen`. -/
def firstOfEachLabel (seen : List Text) : List CompletionItem → List CompletionItem
  | [] => []
  | item :: rest =>
    if seen.contains item.label then firstOfEachLabel seen rest
    else item :: firstOfEachLabel (item.label :: seen) rest

/-- The suggestions for the visible variables. -/
def variableItems (settings : Settings) (v : VisibleSet) : List CompletionItem :=
  firstOfEachLabel [] (v.vars.map fun e =>
    .ofSymbol settings .variableSymbol e.symbol.name e.symbol.value e.document e.depth)

/-- The suggestions for visible callables of one kind. -/
def callableItems (settings : Settings) (kind : SymbolKind) (es : List (Entry CallableSymbol)) :
    List CompletionItem :=
  firstOfEachLabel [] (es.map fun e =>
    .ofSymbol settings kind e.symbol.name (signatureLabel e.symbol.name e.symbol.parameters)
      e.document e.depth)

/-- The suggestions of a request. -/
def Request.suggestions (settings : Settings) (r : Request) : List CompletionItem :=
  let context := completionContext settings r.text r.offset
  (if context.vars && settings.suggestVariables then variableItems settings r.visible
    else []) ++
  (if context.mixins && settings.suggestMixins then
    callableItems settings .mixin r.visible.mixins else []) ++
  (if context.functions && settings.suggestFunctions then
    callableItems settings .function r.visible.functions else [])

/-- The suggestions at an offset of a buffer. When errors are to be shown, a buffer that does
not parse is one. -/
def complete (s : Store) (settings : Settings) (b : Buffer) (offset : Int) :
    Except ParseError (List CompletionItem) :=
  if settings.showErrors then (b.requestStrict s offset).map (·.suggestions settings)
  else .ok ((b.request s offset).suggestions settings)

end StyleIndex
