import StyleIndex.Data.Value
import StyleIndex.Text.Quoted

set_option autoImplicit false

/-! # Writing JSON

A value is written over several lines, each level indented by two spaces more. Characters that
mean something in a web page are escaped, so that the text may stand in one.
-/

namespace StyleIndex

namespace JsonText

/-- The letter of the short escape of a control character. -/
def shortEscape? (c : Nat) : Option UInt8 :=
  match c with
  | 0x08 => some 0x62
  | 0x0c => some 0x66
  | 0x0a => some 0x6e
  | 0x0d => some 0x72
  | 0x09 => some 0x74
  | _ => none

/-- Whether a character is written by its number: control characters, the marks of markup, and
the two separators that end a line in a script. -/
def isEscaped (c : Nat) : Bool :=
  c < 0x20 || c == 0x3c || c == 0x3e || c == 0x26 || c == 0x2028 || c == 0x2029

/-- How one character stands in a string. -/
def escape : Character → Text
  | .stray _ => text "\\ufffd"
  | .scalar c =>
    if c = 0x22 ∨ c = 0x5c then [Ascii.backslash, c.toUInt8]
    else match shortEscape? c with
      | some letter => [Ascii.backslash, letter]
      | none => if isEscaped c then text "\\u" ++ hexDigits 4 c else Utf8.encode c

/-- A string between its quotes. -/
def string (t : Text) : Text := [Ascii.quote] ++ (Utf8.characters t).flatMap escape ++ [Ascii.quote]

/-- A line break and the indentation of the given level. -/
def newline (level : Nat) : Text := Ascii.lf :: List.replicate (2 * level) Ascii.space

/-- The parts between brackets, each on a line of its own; nothing stands between the brackets
when there are none. -/
def enclose (opening closing : Text) (level : Nat) (parts : List Text) : Text :=
  if parts.isEmpty then opening ++ closing
  else
    opening ++ newline (level + 1) ++
      Text.join (Ascii.comma :: newline (level + 1)) parts ++ newline level ++ closing

mutual

/-- A value whose lines after the first are indented to the given level. -/
def write (level : Nat) : Value → Text
  | .null => text "null"
  | .bool b => text (if b then "true" else "false")
  | .int i => Text.ofInt i
  | .float x => x.toPlain
  | .str t => string t
  | .list items => enclose (text "[") (text "]") level (writeItems (level + 1) items)
  | .object fields => enclose [Ascii.lbrace] [Ascii.rbrace] level (writeFields (level + 1) fields)

/-- The items of a list. -/
def writeItems (level : Nat) : List Value → List Text
  | [] => []
  | v :: rest => write level v :: writeItems level rest

/-- The fields of an object. -/
def writeFields (level : Nat) : List (Text × Value) → List Text
  | [] => []
  | f :: rest => writeField level f :: writeFields level rest

/-- One field of an object. -/
def writeField (level : Nat) : Text × Value → Text
  | (name, v) => string name ++ text ": " ++ write level v

end

end JsonText

/-- The value as JSON, with a line break at the end. -/
def Value.toJson (v : Value) : Text := JsonText.write 0 v ++ [Ascii.lf]

end StyleIndex
