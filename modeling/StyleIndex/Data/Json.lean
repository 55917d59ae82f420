import StyleIndex.Data.Value
import StyleIndex.Text.Utf8

set_option autoImplicit false

/-! # Reading JSON

A text is read as one JSON value with nothing after it. Numbers become binary numbers, stray
bytes and lone surrogates inside strings become the replacement character.
-/

namespace StyleIndex

namespace Json

/-- The white space of the format. -/
def isSpace (c : UInt8) : Bool :=
  c == Ascii.space || c == Ascii.tab || c == Ascii.lf || c == Ascii.cr

/-- Passes over white space. -/
def skipSpace (t : Text) : Text := t.dropWhile isSpace

/-! ## Strings -/

/-- A piece of a string: a byte that stands for itself, or a 16-bit unit written as an escape. -/
inductive Piece where
  | byte (b : UInt8)
  | unit (n : Nat)

/-- The value of a hexadecimal digit. -/
def hexValue? (c : UInt8) : Option Nat :=
  if Ascii.isDigit c then some (c.toNat - 0x30)
  else
    let l := Ascii.toLower c
    if 0x61 ≤ l ∧ l ≤ 0x66 then some (l.toNat - 0x57) else none

/-- The value of four hexadecimal digits. -/
def hexUnit? (a b c d : UInt8) : Option Nat := do
  return (← hexValue? a) * 4096 + (← hexValue? b) * 256 + (← hexValue? c) * 16 + (← hexValue? d)

/-- The byte that a short escape stands for. -/
def shortEscape? (c : UInt8) : Option UInt8 :=
  match c with
  | 0x22 => some 0x22
  | 0x5c => some 0x5c
  | 0x2f => some 0x2f
  | 0x62 => some 0x08
  | 0x66 => some Ascii.ff
  | 0x6e => some Ascii.lf
  | 0x72 => some Ascii.cr
  | 0x74 => some Ascii.tab
  | _ => none

/-- The pieces of a string whose opening quote has been passed, and the text after it. -/
def readPieces : Text → Option (List Piece × Text)
  | [] => none
  | 0x22 :: rest => some ([], rest)
  | 0x5c :: 0x75 :: a :: b :: c :: d :: rest => do
    let n ← hexUnit? a b c d
    let (pieces, after) ← readPieces rest
    return (.unit n :: pieces, after)
  | 0x5c :: c :: rest => do
    let b ← shortEscape? c
    let (pieces, after) ← readPieces rest
    return (.byte b :: pieces, after)
  | c :: rest =>
    if c < 0x20 ∨ c = Ascii.backslash then none
    else do
      let (pieces, after) ← readPieces rest
      return (.byte c :: pieces, after)

/-- The bytes that the pieces stand for. Two units that form a pair are one character. -/
def assemble : List Piece → Text
  | [] => []
  | .byte b :: rest => b :: assemble rest
  | .unit h :: .unit l :: rest =>
    if 0xd800 ≤ h ∧ h < 0xdc00 ∧ 0xdc00 ≤ l ∧ l < 0xe000 then
      Utf8.encode (0x10000 + (h - 0xd800) * 1024 + (l - 0xdc00)) ++ assemble rest
    else single h ++ assemble (.unit l :: rest)
  | .unit u :: rest => single u ++ assemble rest
where
  /-- The bytes of a unit that stands alone. -/
  single (u : Nat) : Text := Utf8.encode (if 0xd800 ≤ u ∧ u < 0xe000 then Utf8.replacement else u)

/-- The text with every stray byte replaced. -/
def repair (t : Text) : Text := (Utf8.characters t).flatMap fun r => Utf8.encode (Utf8.code r)

/-- A string whose opening quote has been passed, and the text after it. -/
def readString (t : Text) : Option (Text × Text) :=
  (readPieces t).map fun (pieces, after) => (repair (assemble pieces), after)

/-! ## Numbers -/

/-- The parts of a number: its sign, the digits before and after the point, and the exponent. -/
structure Numeral where
  negative : Bool
  whole : Text
  fraction : Text
  exponent : Int

/-- The whole number that decimal digits stand for. -/
def natOf (digits : Text) : Nat := digits.foldl (fun n c => n * 10 + (c.toNat - 0x30)) 0

/-- The digits at the beginning of a text, and what follows. -/
def readDigits (t : Text) : Text × Text := (t.takeWhile Ascii.isDigit, t.dropWhile Ascii.isDigit)

/-- The fraction at the beginning of a text; a point needs a digit after it. -/
def readFraction (t : Text) : Option (Text × Text) :=
  match t with
  | Ascii.dot :: rest =>
    let (digits, after) := readDigits rest
    if digits.isEmpty then none else some (digits, after)
  | _ => some ([], t)

/-- The exponent at the beginning of a text; its mark needs a digit after it. -/
def readExponent (t : Text) : Option (Int × Text) :=
  match t with
  | c :: rest =>
    if Ascii.toLower c = 0x65 then
      let (negative, rest) :=
        match rest with
        | Ascii.plus :: r => (false, r)
        | Ascii.hyphen :: r => (true, r)
        | r => (false, r)
      let (digits, after) := readDigits rest
      if digits.isEmpty then none
      else some (if negative then -(natOf digits : Int) else natOf digits, after)
    else some (0, t)
  | [] => some (0, [])

/-- A number at the beginning of a text, and what follows. -/
def readNumeral (t : Text) : Option (Numeral × Text) := do
  let (negative, t) :=
    match t with
    | Ascii.hyphen :: rest => (true, rest)
    | _ => (false, t)
  let (whole, t) := readDigits t
  if whole.isEmpty ∨ (whole.head? = some 0x30 ∧ 1 < whole.length) then none
  else
    let (fraction, t) ← readFraction t
    let (exponent, t) ← readExponent t
    return (⟨negative, whole, fraction, exponent⟩, t)

/-- The binary number that a numeral stands for; nothing when it is too large. -/
def Numeral.toBinary? (n : Numeral) : Option Binary64 :=
  Binary64.ofDecimal? n.negative (natOf (n.whole ++ n.fraction)) (n.exponent - n.fraction.length)

/-! ## Values -/

mutual

/-- A value at the beginning of a text, and what follows. Each nested value needs one more of the
`limit`. -/
def readValue : (limit : Nat) → Text → Option (Value × Text)
  | 0, _ => none
  | limit + 1, t =>
    match skipSpace t with
    | Ascii.quote :: rest => (readString rest).map fun (s, after) => (.str s, after)
    | Ascii.lbracket :: rest =>
      match skipSpace rest with
      | Ascii.rbracket :: after => some (.list [], after)
      | rest => (readItems limit rest).map fun (items, after) => (.list items, after)
    | Ascii.lbrace :: rest =>
      match skipSpace rest with
      | Ascii.rbrace :: after => some (.object [], after)
      | rest => (readFields limit rest).map fun (fields, after) => (.object fields, after)
    | rest =>
      if Text.startsWith rest (text "true") then some (.bool true, rest.drop 4)
      else if Text.startsWith rest (text "false") then some (.bool false, rest.drop 5)
      else if Text.startsWith rest (text "null") then some (.null, rest.drop 4)
      else do
        let (n, after) ← readNumeral rest
        let x ← n.toBinary?
        return (.float x, after)

/-- The items of a list whose bracket has been passed, and what follows it. -/
def readItems : (limit : Nat) → Text → Option (List Value × Text)
  | 0, _ => none
  | limit + 1, t => do
    let (v, t) ← readValue limit t
    match skipSpace t with
    | Ascii.comma :: rest =>
      let (items, after) ← readItems limit rest
      return (v :: items, after)
    | Ascii.rbracket :: after => return ([v], after)
    | _ => none

/-- The fields of an object whose brace has been passed, and what follows it. -/
def readFields : (limit : Nat) → Text → Option (List (Text × Value) × Text)
  | 0, _ => none
  | limit + 1, t => do
    match skipSpace t with
    | Ascii.quote :: rest =>
      let (name, t) ← readString rest
      match skipSpace t with
      | Ascii.colon :: rest =>
        let (v, t) ← readValue limit rest
        match skipSpace t with
        | Ascii.comma :: rest =>
          let (fields, after) ← readFields limit rest
          return ((name, v) :: fields, after)
        | Ascii.rbrace :: after => return ([(name, v)], after)
        | _ => none
      | _ => none
    | _ => none

end

end Json

/-- The value of a JSON text. Every nested value takes a byte, so the length of the text bounds
the nesting. -/
def Value.ofJson? (t : Text) : Option Value := do
  let (v, rest) ← Json.readValue (t.length + 1) t
  if (Json.skipSpace rest).isEmpty then return v else none

end StyleIndex
