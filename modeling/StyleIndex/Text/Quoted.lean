import StyleIndex.Text.Printable
import StyleIndex.Text.Utf8

set_option autoImplicit false

/-! # Quoted text in messages

Messages show a text that came from outside between double quotes, with everything that is
not printable written as an escape: short escapes for the common control characters, `\x` with
two digits for other control characters and for stray bytes, `\u` with four or `\U` with eight
digits for other characters. Digits are hexadecimal, in lower case.
-/

namespace StyleIndex

/-- The hexadecimal digit of a number below sixteen. -/
def hexDigit (n : Nat) : UInt8 := if n < 10 then (0x30 + n).toUInt8 else (0x57 + n).toUInt8

/-- The `width` lowest hexadecimal digits of `n`, highest first. -/
def hexDigits : (width n : Nat) → Text
  | 0, _ => []
  | width + 1, n => hexDigits width (n / 16) ++ [hexDigit (n % 16)]

namespace Quoted

/-- The letter of the short escape of a control character. -/
def shortEscape? (c : Nat) : Option UInt8 :=
  match c with
  | 0x07 => some 0x61
  | 0x08 => some 0x62
  | 0x0c => some 0x66
  | 0x0a => some 0x6e
  | 0x0d => some 0x72
  | 0x09 => some 0x74
  | 0x0b => some 0x76
  | _ => none

/-- How one character stands between the quotes. -/
def escape : Character → Text
  | .stray b => [Ascii.backslash, 0x78] ++ hexDigits 2 b.toNat
  | .scalar c =>
    if c = 0x22 ∨ c = 0x5c then [Ascii.backslash, c.toUInt8]
    else if isPrintableCode c then Utf8.encode c
    else match shortEscape? c with
      | some letter => [Ascii.backslash, letter]
      | none =>
        if c < 0x20 ∨ c = 0x7f then [Ascii.backslash, 0x78] ++ hexDigits 2 c
        else if c < 0x10000 then [Ascii.backslash, 0x75] ++ hexDigits 4 c
        else [Ascii.backslash, 0x55] ++ hexDigits 8 c

end Quoted

/-- The text between double quotes, with escapes. -/
def Text.quoted (t : Text) : Text :=
  [Ascii.quote] ++ (Utf8.characters t).flatMap Quoted.escape ++ [Ascii.quote]

end StyleIndex
