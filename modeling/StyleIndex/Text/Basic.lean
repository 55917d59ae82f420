set_option autoImplicit false

/-! # Texts

Stylesheets, paths, names and messages are *texts*: finite sequences of bytes. A text is
meant to be UTF-8, but nothing here depends on it, so a file with stray bytes is handled like
any other. An offset counts bytes from the start of a text.

The file holds the byte names used by the scanners, the literal `text "…"`, and the searching,
slicing and splitting operations. All of them are total: an offset past the end means the end.
-/

namespace StyleIndex

/-- A sequence of bytes, meant to be read as UTF-8. -/
abbrev Text := List UInt8

/-- The bytes of a string literal. -/
def text (s : String) : Text := s.toUTF8.data.toList

/-! ## Byte names -/

namespace Ascii

/-- Horizontal tab. -/
@[match_pattern] abbrev tab : UInt8 := 0x09
/-- Line feed. -/
@[match_pattern] abbrev lf : UInt8 := 0x0a
/-- Form feed. -/
@[match_pattern] abbrev ff : UInt8 := 0x0c
/-- Carriage return. -/
@[match_pattern] abbrev cr : UInt8 := 0x0d
/-- Space. -/
@[match_pattern] abbrev space : UInt8 := 0x20
/-- Exclamation mark. -/
@[match_pattern] abbrev bang : UInt8 := 0x21
/-- Double quote. -/
@[match_pattern] abbrev quote : UInt8 := 0x22
/-- Number sign. -/
@[match_pattern] abbrev hash : UInt8 := 0x23
/-- Dollar sign, the first byte of a variable name. -/
@[match_pattern] abbrev dollar : UInt8 := 0x24
/-- Single quote. -/
@[match_pattern] abbrev apostrophe : UInt8 := 0x27
/-- Left parenthesis. -/
@[match_pattern] abbrev lparen : UInt8 := 0x28
/-- Right parenthesis. -/
@[match_pattern] abbrev rparen : UInt8 := 0x29
/-- Asterisk. -/
@[match_pattern] abbrev star : UInt8 := 0x2a
/-- Plus sign. -/
@[match_pattern] abbrev plus : UInt8 := 0x2b
/-- Comma. -/
@[match_pattern] abbrev comma : UInt8 := 0x2c
/-- Hyphen. -/
@[match_pattern] abbrev hyphen : UInt8 := 0x2d
/-- Full stop. -/
@[match_pattern] abbrev dot : UInt8 := 0x2e
/-- Slash, the separator of path elements. -/
@[match_pattern] abbrev slash : UInt8 := 0x2f
/-- Colon. -/
@[match_pattern] abbrev colon : UInt8 := 0x3a
/-- Semicolon. -/
@[match_pattern] abbrev semicolon : UInt8 := 0x3b
/-- Less-than sign. -/
@[match_pattern] abbrev less : UInt8 := 0x3c
/-- Equals sign. -/
@[match_pattern] abbrev equals : UInt8 := 0x3d
/-- Greater-than sign. -/
@[match_pattern] abbrev greater : UInt8 := 0x3e
/-- Question mark. -/
@[match_pattern] abbrev question : UInt8 := 0x3f
/-- At sign, the first byte of an at-rule. -/
@[match_pattern] abbrev atSign : UInt8 := 0x40
/-- Left square bracket. -/
@[match_pattern] abbrev lbracket : UInt8 := 0x5b
/-- Backslash. -/
@[match_pattern] abbrev backslash : UInt8 := 0x5c
/-- Right square bracket. -/
@[match_pattern] abbrev rbracket : UInt8 := 0x5d
/-- Underscore. -/
@[match_pattern] abbrev underscore : UInt8 := 0x5f
/-- Left brace. -/
@[match_pattern] abbrev lbrace : UInt8 := 0x7b
/-- Right brace. -/
@[match_pattern] abbrev rbrace : UInt8 := 0x7d

/-- The digits `0` to `9`. -/
def isDigit (c : UInt8) : Bool := 0x30 ≤ c && c ≤ 0x39

/-- The letters `A` to `Z`. -/
def isUpper (c : UInt8) : Bool := 0x41 ≤ c && c ≤ 0x5a

/-- The letters `a` to `z`. -/
def isLower (c : UInt8) : Bool := 0x61 ≤ c && c ≤ 0x7a

/-- A letter of either case. -/
def isAlpha (c : UInt8) : Bool := isUpper c || isLower c

/-- The lower-case form of an ASCII letter; every other byte is unchanged. -/
def toLower (c : UInt8) : UInt8 := if isUpper c then c + 0x20 else c

/-- The upper-case form of an ASCII letter; every other byte is unchanged. -/
def toUpper (c : UInt8) : UInt8 := if isLower c then c - 0x20 else c

/-- White space of a stylesheet: space, tab, line feed, carriage return, form feed. -/
def isSpace (c : UInt8) : Bool :=
  c == space || c == tab || c == lf || c == cr || c == ff

/-- A quotation mark of either kind. -/
def isQuote (c : UInt8) : Bool := c == quote || c == apostrophe

end Ascii

namespace Text

/-! ## Searching -/

/-- Whether `t` begins with `p`. -/
def startsWith (t p : Text) : Bool := p.isPrefixOf t

/-- Whether `t` ends with `s`. -/
def endsWith (t s : Text) : Bool := s.isSuffixOf t

/-- The offset of the first occurrence of `needle`. -/
def indexOf? (needle : Text) : Text → Option Nat
  | [] => if needle.isEmpty then some 0 else none
  | c :: rest =>
    if needle.isPrefixOf (c :: rest) then some 0 else (indexOf? needle rest).map (· + 1)

/-- The offset of the last occurrence of `needle`. -/
def lastIndexOf? (needle : Text) : Text → Option Nat
  | [] => if needle.isEmpty then some 0 else none
  | c :: rest =>
    match lastIndexOf? needle rest with
    | some i => some (i + 1)
    | none => if needle.isPrefixOf (c :: rest) then some 0 else none

/-- Whether `needle` occurs somewhere in `t`. -/
def includes (t needle : Text) : Bool := (indexOf? needle t).isSome

/-- The offset of the first byte equal to `c`. -/
def byteIndex? (c : UInt8) : Text → Option Nat
  | [] => none
  | d :: rest => if d = c then some 0 else (byteIndex? c rest).map (· + 1)

/-- The offset of the last byte equal to `c`. -/
def lastByteIndex? (c : UInt8) : Text → Option Nat
  | [] => none
  | d :: rest =>
    match lastByteIndex? c rest with
    | some i => some (i + 1)
    | none => if d = c then some 0 else none

/-! ## Slicing -/

/-- The bytes from offset `i` up to offset `j`. -/
def slice (t : Text) (i j : Nat) : Text := (t.drop i).take (j - i)

/-- Removes the longest suffix of bytes that satisfy `p`. -/
def trimEndWhile (p : UInt8 → Bool) (t : Text) : Text := (t.reverse.dropWhile p).reverse

/-- Removes `p` from the front of `t` if it stands there. -/
def dropStart (t p : Text) : Text := if startsWith t p then t.drop p.length else t

/-- Removes `s` from the end of `t` if it stands there. -/
def dropEnd (t s : Text) : Text := if endsWith t s then t.take (t.length - s.length) else t

/-- Cuts `t` at the first `c`: the part before it and the part after it. -/
def cut? (c : UInt8) (t : Text) : Option (Text × Text) :=
  (byteIndex? c t).map fun i => (t.take i, t.drop (i + 1))

/-! ## Splitting and joining -/

/-- The pieces of `t` between the occurrences of the byte `c`; one more than there are
occurrences. -/
def splitOn (c : UInt8) : Text → List Text
  | [] => [[]]
  | d :: rest =>
    if d = c then [] :: splitOn c rest
    else match splitOn c rest with
      | [] => [[d]]
      | piece :: pieces => (d :: piece) :: pieces

/-- The pieces joined with `sep` between each two. -/
def join (sep : Text) : List Text → Text
  | [] => []
  | [t] => t
  | t :: rest => t ++ sep ++ join sep rest

/-! ## Order -/

/-- Texts in increasing byte order, duplicates kept. -/
def sort (ts : List Text) : List Text := ts.mergeSort fun a b => decide (a ≤ b)

/-- Removes each text that equals the one before it. -/
def dropRepeats : List Text → List Text
  | a :: b :: rest => if a = b then dropRepeats (b :: rest) else a :: dropRepeats (b :: rest)
  | ts => ts

/-- Texts in increasing byte order, each once. -/
def sortUnique (ts : List Text) : List Text := dropRepeats (sort ts)

/-- Whether `q` is a subsequence of `t`, byte by byte. -/
def isSubsequence : Text → Text → Bool
  | [], _ => true
  | _ :: _, [] => false
  | a :: q, b :: t => if a = b then isSubsequence q t else isSubsequence (a :: q) t

/-! ## Decimal numbers -/

/-- A natural number in decimal. -/
def ofNat (n : Nat) : Text := text (toString n)

/-- An integer in decimal, with a leading hyphen when negative. -/
def ofInt (i : Int) : Text :=
  match i with
  | .ofNat n => ofNat n
  | .negSucc n => Ascii.hyphen :: ofNat (n + 1)

end Text

end StyleIndex
