import StyleIndex.Data.Yaml.Scalar

set_option autoImplicit false

/-! # Flow values of YAML

Lists in brackets and objects in braces, as in JSON, but with plain scalars and comments between
the items. They may go over several lines.
-/

namespace StyleIndex

namespace Yaml

/-- Whether a plain scalar may start with the byte `c` that `next?` follows. -/
def startsPlain (c : UInt8) (next? : Option UInt8) : Bool :=
  if c == Ascii.hyphen || c == Ascii.question || c == Ascii.colon then
    next?.any fun d => !isBlank d && d != Ascii.lf
  else !isBlank c && !(text ",[]\x7b\x7d#&*!|>'\"%@\x60").contains c

/-- Passes over white space, line breaks and comments. `fresh` says that white space stands in
front, which a comment needs. -/
def skipFlowSpace (fresh : Bool) : Text → Text
  | [] => []
  | c :: rest =>
    if isBlank c ∨ c = Ascii.lf then skipFlowSpace true rest
    else if c = Ascii.hash ∧ fresh then skipComment rest
    else c :: rest
where
  /-- Passes over the rest of a comment and what follows it. -/
  skipComment : Text → Text
    | [] => []
    | c :: rest => if c = Ascii.lf then skipFlowSpace true rest else skipComment rest

/-- A byte that ends a plain scalar inside brackets. -/
def isFlowMark (c : UInt8) : Bool := (text ",[]\x7b\x7d").contains c

/-- The bytes of a plain scalar inside brackets, and the text after it. It ends before a mark, a
colon that white space or a mark follows, or a comment. -/
def takeFlowPlain : Text → Text × Text
  | [] => ([], [])
  | c :: rest =>
    let ends :=
      isFlowMark c ||
      (c == Ascii.colon && rest.head?.all fun d => isBlank d || d == Ascii.lf || isFlowMark d) ||
      ((isBlank c || c == Ascii.lf) && rest.head? == some Ascii.hash)
    if ends then ([], c :: rest)
    else
      let (taken, after) := takeFlowPlain rest
      (c :: taken, after)

/-- A plain scalar inside brackets, and the text after it. -/
def readFlowPlain (t : Text) : Option (Text × Text) :=
  match t with
  | [] => none
  | c :: rest =>
    if startsPlain c rest.head? then
      let (taken, after) := takeFlowPlain t
      some (foldLines ((Text.splitOn Ascii.lf taken).map trim), after)
    else none

mutual

/-- A flow value or a scalar at the beginning of a text, and the text after it. -/
def readFlow : (limit : Nat) → Text → Option (Value × Text)
  | 0, _ => none
  | limit + 1, t =>
    match t with
    | Ascii.lbracket :: rest => (readFlowItems limit rest).map fun (is, after) => (.list is, after)
    | Ascii.lbrace :: rest => (readFlowFields limit rest).map fun (fs, after) => (.object fs, after)
    | t =>
      match t.head?.any Ascii.isQuote with
      | true => (readQuoted t).map fun (s, after) => (.str s, after)
      | false => (readFlowPlain t).map fun (s, after) => (resolve s, after)

/-- The items of a list whose bracket has been passed, and the text after it. -/
def readFlowItems : (limit : Nat) → Text → Option (List Value × Text)
  | 0, _ => none
  | limit + 1, t =>
    match skipFlowSpace true t with
    | Ascii.rbracket :: after => some ([], after)
    | t => do
      let (v, t) ← readFlow limit t
      match skipFlowSpace false t with
      | Ascii.comma :: rest =>
        let (items, after) ← readFlowItems limit rest
        return (v :: items, after)
      | Ascii.rbracket :: after => return ([v], after)
      | _ => none

/-- The fields of an object whose brace has been passed, and the text after it. -/
def readFlowFields : (limit : Nat) → Text → Option (List (Text × Value) × Text)
  | 0, _ => none
  | limit + 1, t =>
    match skipFlowSpace true t with
    | Ascii.rbrace :: after => some ([], after)
    | t => do
      let (name, t) ←
        if t.head?.any Ascii.isQuote then readQuoted t else readFlowPlain t
      let (v, t) ←
        match skipFlowSpace false t with
        | Ascii.colon :: rest =>
          match skipFlowSpace true rest with
          | Ascii.comma :: after => some (.null, Ascii.comma :: after)
          | Ascii.rbrace :: after => some (.null, Ascii.rbrace :: after)
          | t => readFlow limit t
        | t => some (.null, t)
      match skipFlowSpace false t with
      | Ascii.comma :: rest =>
        let (fields, after) ← readFlowFields limit rest
        return ((name, v) :: fields, after)
      | Ascii.rbrace :: after => return ([(name, v)], after)
      | _ => none

end

end Yaml

end StyleIndex
