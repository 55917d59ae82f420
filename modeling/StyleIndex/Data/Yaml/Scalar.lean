import StyleIndex.Data.Json
import StyleIndex.Text.Numeral

set_option autoImplicit false

/-! # Scalars of YAML

A scalar that is not quoted has the type its spelling suggests: nothing, a truth value, a whole
number, a number, or else a string. A quoted scalar is always a string; between double quotes a
backslash starts an escape, between single quotes only a doubled quote is special.
-/

namespace StyleIndex

namespace Yaml

/-! ## Plain scalars -/

/-- The spellings of constants. -/
def constant? (t : Text) : Option Value :=
  let isOneOf := fun (words : List String) => words.any fun w => text w == t
  if t.isEmpty || isOneOf ["~", "null", "Null", "NULL"] then some .null
  else if isOneOf ["true", "True", "TRUE"] then some (.bool true)
  else if isOneOf ["false", "False", "FALSE"] then some (.bool false)
  else if isOneOf [".nan", ".NaN", ".NAN"] then some (.float .notANumber)
  else if isOneOf [".inf", ".Inf", ".INF", "+.inf", "+.Inf", "+.INF"] then
    some (.float (.infinite false))
  else if isOneOf ["-.inf", "-.Inf", "-.INF"] then some (.float (.infinite true))
  else none

/-- A number with an optional sign, point and exponent; a digit has to stand on one side of the
point. -/
def readFloat? (t : Text) : Option Binary64 := do
  let (negative, t) := Numeral.splitSign t
  let (whole, t) := Json.readDigits t
  let (fraction, t) :=
    match t with
    | Ascii.dot :: rest => Json.readDigits rest
    | _ => ([], t)
  let (exponent, t) ← Json.readExponent t
  if t.isEmpty ∧ ¬ (whole ++ fraction).isEmpty then
    Json.Numeral.toBinary? ⟨negative, whole, fraction, exponent⟩
  else none

/-- A whole number: with a sign it has to fit into a signed, without one into an unsigned 64-bit
word. -/
def readWhole? (t : Text) : Option Int :=
  match t.readInt with
  | .ok i => some i
  | .error _ => (Numeral.readUnsigned t).toOption.map Int.ofNat

/-- The number that a text spells, if it begins like one. Underscores are passed over in a text
that begins with a sign or a digit. -/
def number? (t : Text) : Option Value :=
  match t with
  | [] => none
  | c :: _ =>
    if c = Ascii.dot then (readFloat? t).map .float
    else if Ascii.isDigit c ∨ c = Ascii.plus ∨ c = Ascii.hyphen then
      let plain := t.filter (· ≠ Ascii.underscore)
      match readWhole? plain with
      | some i => some (.int i)
      | none => (readFloat? plain).map .float
    else none

/-- The value of a plain scalar. -/
def resolve (t : Text) : Value := ((constant? t).or (number? t)).getD (.str t)

/-! ## Quoted scalars -/

/-- White space within a line. -/
def isBlank (c : UInt8) : Bool := c == Ascii.space || c == Ascii.tab

/-- The text without white space at either end. -/
def trim (t : Text) : Text := Text.trimEndWhile isBlank (t.dropWhile isBlank)

/-- Joins the lines of a scalar: a single line break becomes a space, each further one stays. -/
def foldLines : List Text → Text
  | [] => []
  | [last] => last
  | [] :: rest => Ascii.lf :: foldLines rest
  | line :: [] :: rest => line ++ foldLines ([] :: rest)
  | line :: rest => line ++ [Ascii.space] ++ foldLines rest

/-- The text of a quoted scalar: where it goes over several lines, the white space around the line
breaks is dropped. -/
def unfold (t : Text) : Text :=
  match Text.splitOn Ascii.lf t with
  | [] => []
  | [line] => line
  | first :: rest =>
    let last := rest.getLastD []
    foldLines (Text.trimEndWhile isBlank first :: rest.dropLast.map trim ++
      [last.dropWhile isBlank])

/-- A single-quoted scalar whose opening quote has been passed, and the text after it. -/
def readSingle : Text → Option (Text × Text)
  | [] => none
  | 0x27 :: 0x27 :: rest => (readSingle rest).map fun (s, after) => (0x27 :: s, after)
  | 0x27 :: rest => some ([], rest)
  | c :: rest => (readSingle rest).map fun (s, after) => (c :: s, after)

/-- The code point that a short escape stands for. -/
def shortEscape? (c : UInt8) : Option Nat :=
  match c with
  | 0x30 => some 0x00
  | 0x61 => some 0x07
  | 0x62 => some 0x08
  | 0x74 => some 0x09
  | 0x09 => some 0x09
  | 0x6e => some 0x0a
  | 0x76 => some 0x0b
  | 0x66 => some 0x0c
  | 0x72 => some 0x0d
  | 0x65 => some 0x1b
  | 0x20 => some 0x20
  | 0x22 => some 0x22
  | 0x27 => some 0x27
  | 0x2f => some 0x2f
  | 0x5c => some 0x5c
  | 0x4e => some 0x85
  | 0x5f => some 0xa0
  | 0x4c => some 0x2028
  | 0x50 => some 0x2029
  | _ => none

/-- The code point written with two, four or eight hexadecimal digits. -/
def hexCode? (digits : Text) : Option Nat := do
  let values ← digits.mapM Json.hexValue?
  let n := values.foldl (fun n d => n * 16 + d) 0
  if (0xd800 ≤ n ∧ n < 0xe000) ∨ 0x10ffff < n then none else return n

/-- The bytes up to the quote that ends a double-quoted scalar, escapes left as they are, and the
text after it. -/
def takeDouble : Text → Option (Text × Text)
  | [] => none
  | 0x22 :: rest => some ([], rest)
  | 0x5c :: c :: rest => (takeDouble rest).map fun (s, after) => (0x5c :: c :: s, after)
  | c :: rest => (takeDouble rest).map fun (s, after) => (c :: s, after)

/-- The text that a double-quoted scalar stands for. -/
def decodeEscapes : Text → Option Text
  | [] => some []
  | 0x5c :: 0x78 :: a :: b :: rest => escaped (hexCode? [a, b]) (decodeEscapes rest)
  | 0x5c :: 0x75 :: a :: b :: c :: d :: rest =>
    escaped (hexCode? [a, b, c, d]) (decodeEscapes rest)
  | 0x5c :: 0x55 :: a :: b :: c :: d :: e :: f :: g :: h :: rest =>
    escaped (hexCode? [a, b, c, d, e, f, g, h]) (decodeEscapes rest)
  | 0x5c :: c :: rest => escaped (shortEscape? c) (decodeEscapes rest)
  | c :: rest => if c = Ascii.backslash then none else (decodeEscapes rest).map (c :: ·)
where
  /-- Puts a character in front of what was read. -/
  escaped (code : Option Nat) (rest : Option Text) : Option Text := do
    return Utf8.encode (← code) ++ (← rest)

/-- A quoted scalar at the beginning of a text, and the text after it. -/
def readQuoted (t : Text) : Option (Text × Text) :=
  match t with
  | Ascii.apostrophe :: rest => (readSingle rest).map fun (s, after) => (unfold s, after)
  | Ascii.quote :: rest => do
    let (raw, after) ← takeDouble rest
    return (← decodeEscapes (unfold raw), after)
  | _ => none

end Yaml

end StyleIndex
