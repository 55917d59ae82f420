import StyleIndex.Text.Utf8

set_option autoImplicit false

/-! # Reading glob patterns

A glob is a sequence of items, each of which takes some characters of a path: a literal text,
`?` for one character other than a slash, `*` for a run without slashes, `**` for any run, a
class `[abc]` or `[a-z]`, and alternatives `{a,b}`. A backslash makes the next character literal.
-/

namespace StyleIndex

/-- One item of a glob. -/
inductive GlobItem where
  | text (t : Text)
  | single
  | run
  | deepRun
  | oneOf (negated : Bool) (chars : List Nat)
  | range (negated : Bool) (low high : Nat)
  | choice (alternatives : List (List GlobItem))

/-- Why a pattern is not a glob. -/
inductive GlobError where
  | unreadable
  | endOfInput
  | unclosedRange
  | emptyClass
  | reversedRange (low high : Nat)
  deriving DecidableEq

/-- The wording of a glob error. -/
def GlobError.message : GlobError → Text
  | .unreadable => text "could not read rune"
  | .endOfInput => text "unexpected end of input"
  | .unclosedRange => text "expected close range character"
  | .emptyClass => text "could not parse range"
  | .reversedRange low high =>
    text "hi character '" ++ Utf8.encode high ++ text "' should be greater than lo '" ++
      Utf8.encode low ++ text "'"

namespace Glob

/-! ## Characters with a meaning -/

@[match_pattern] abbrev slash : Nat := 0x2f
@[match_pattern] abbrev bang : Nat := 0x21
@[match_pattern] abbrev star : Nat := 0x2a
@[match_pattern] abbrev comma : Nat := 0x2c
@[match_pattern] abbrev hyphen : Nat := 0x2d
@[match_pattern] abbrev question : Nat := 0x3f
@[match_pattern] abbrev lbracket : Nat := 0x5b
@[match_pattern] abbrev backslash : Nat := 0x5c
@[match_pattern] abbrev rbracket : Nat := 0x5d
@[match_pattern] abbrev lbrace : Nat := 0x7b
@[match_pattern] abbrev rbrace : Nat := 0x7d

/-! ## Reading a pattern -/

/-- A class read from a pattern and the number of characters it took. -/
structure ClassRead where
  item : GlobItem
  length : Nat

/-- Reads the characters of a class up to its closing bracket, with escapes; also the number of
characters read, the bracket not included. -/
def readClassChars : List Nat → List Nat × Nat
  | [] => ([], 0)
  | c :: rest =>
    if c = rbracket then ([], 0)
    else if c = backslash then
      match rest with
      | [] => ([], 1)
      | d :: after =>
        let (chars, n) := readClassChars after
        (d :: chars, n + 2)
    else
      let (chars, n) := readClassChars rest
      (c :: chars, n + 1)

/-- Reads a class from just after its opening bracket and an optional `!`. The first character
followed by a hyphen starts a range, after which only the closing bracket may stand. -/
def readClassBody (negated : Bool) (t : List Nat) : Except GlobError ClassRead :=
  match t with
  | [] => .error .endOfInput
  | low :: hyphen :: rest =>
    match rest with
    | [] => .error .endOfInput
    | [_] => .error .endOfInput
    | high :: close :: _ =>
      if close ≠ rbracket then .error .unclosedRange
      else if high < low then .error (.reversedRange low high)
      else if low = 0 then .error .emptyClass
      else .ok ⟨.range negated low high, 4⟩
  | _ =>
    let (chars, n) := readClassChars t
    if t.length ≤ n then .error .endOfInput
    else if chars.isEmpty then .error .emptyClass
    else .ok ⟨.oneOf negated chars, n + 1⟩

/-- Reads a class from just after its opening bracket. A character that cannot be read ends the
pattern. -/
def readClass (t : List Nat) : Except GlobError ClassRead :=
  match t.takeWhile (· ≠ Utf8.replacement) with
  | bang :: rest => (readClassBody true rest).map fun r => { r with length := r.length + 1 }
  | t => readClassBody false t

/-- Alternatives whose closing brace has not been reached: the items before the opening brace
and the finished alternatives, both last first. -/
structure OpenChoice where
  before : List GlobItem
  finished : List (List GlobItem)

/-- Ends the innermost alternatives with the given last alternative, itself last first. -/
def OpenChoice.close (o : OpenChoice) (items : List GlobItem) : List GlobItem :=
  .choice (items.reverse :: o.finished).reverse :: o.before

/-- Adds a literal character to items, which are last first. -/
def addChar (c : Nat) : List GlobItem → List GlobItem
  | .text t :: items => .text (t ++ Utf8.encode c) :: items
  | items => .text (Utf8.encode c) :: items

/-- Reads a pattern. `items` holds the items read in the innermost open alternative, last first.
Alternatives left open at the end are closed there. -/
def read (opened : List OpenChoice) (items : List GlobItem) :
    List Nat → Except GlobError (List GlobItem)
  | [] => .ok (opened.foldl (fun items o => o.close items) items).reverse
  | c :: rest =>
    if c = Utf8.replacement then .error .unreadable
    else if c = lbrace then read (⟨items, []⟩ :: opened) [] rest
    else if c = question then read opened (.single :: items) rest
    else if c = star then
      let n := if rest.head? = some star then 1 else 0
      read opened ((if n = 1 then .deepRun else .run) :: items) (rest.drop n)
    else if c = lbracket then
      match readClass rest with
      | .error e => .error e
      | .ok r => read opened (r.item :: items) (rest.drop r.length)
    else if c = backslash then
      match rest with
      | [] => read opened items []
      | d :: after =>
        if d = Utf8.replacement then .error .unreadable else read opened (addChar d items) after
    else match opened with
      | [] => read opened (addChar c items) rest
      | o :: outer =>
        if c = comma then read ({ o with finished := items.reverse :: o.finished } :: outer) [] rest
        else if c = rbrace then read outer (o.close items) rest
        else read opened (addChar c items) rest
termination_by t => t.length
decreasing_by all_goals (simp only [List.length_drop, List.length_cons]; omega)

/-- The items of a pattern. -/
def items (pattern : Text) : Except GlobError (List GlobItem) :=
  read [] [] ((Utf8.characters pattern).map Utf8.code)

end Glob

end StyleIndex
