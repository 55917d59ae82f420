import StyleIndex.Text.Basic

set_option autoImplicit false

/-! # Reading numbers and truth values

Integers are read from settings, arguments and positions. Two notations are in use: plain
decimal, and the notation of settings, where `0x`, `0o`, `0b` or a leading `0` choose the base
and single underscores may separate digits. Both take an optional sign, and a value must fit
into 64 bits.
-/

namespace StyleIndex

/-- Why a text is not a number. -/
inductive NumeralFault where
  | malformed
  | outOfRange
  deriving DecidableEq

namespace Numeral

/-- One more than the largest unsigned 64-bit value. -/
def wordBound : Nat := 18446744073709551616

/-- One more than the largest signed 64-bit value. -/
def signBound : Nat := 9223372036854775808

/-- The value of a digit of a base up to thirty-six. -/
def digitValue? (c : UInt8) : Option Nat :=
  if Ascii.isDigit c then some (c.toNat - 0x30)
  else if Ascii.isAlpha c then some ((Ascii.toLower c).toNat - 0x61 + 10)
  else none

/-- Reads digits of the given base from the left onto the value `n` read so far; underscores
are passed over when `separators` allows them. A value out of range is reported as soon as it
is reached, before anything that follows is looked at. -/
def readDigits (base : Nat) (separators : Bool) : (n : Nat) → Text → Except NumeralFault Nat
  | n, [] => .ok n
  | n, c :: rest =>
    if separators && c == Ascii.underscore then readDigits base separators n rest
    else match digitValue? c with
      | none => .error .malformed
      | some d =>
        if base ≤ d then .error .malformed
        else if wordBound ≤ n * base + d then .error .outOfRange
        else readDigits base separators (n * base + d) rest

/-- What stood before a byte of a number: nothing yet, a digit, an underscore, or anything
else. -/
inductive Before where
  | start | digit | underscore | other
  deriving DecidableEq

/-- Whether every underscore stands between two digits, where a base mark counts as a digit. -/
def separatorsFit (hex : Bool) : Before → Text → Bool
  | before, [] => before != .underscore
  | before, c :: rest =>
    if Ascii.isDigit c || (hex && 0x61 ≤ Ascii.toLower c && Ascii.toLower c ≤ 0x66) then
      separatorsFit hex .digit rest
    else if c == Ascii.underscore then
      before == .digit && separatorsFit hex .underscore rest
    else before != .underscore && separatorsFit hex .other rest

/-- The base that an unsigned number names and the digits that follow its mark. -/
def baseOf : Text → Nat × Text
  | 0x30 :: c :: d :: rest =>
    match Ascii.toLower c with
    | 0x62 => (2, d :: rest)
    | 0x6f => (8, d :: rest)
    | 0x78 => (16, d :: rest)
    | _ => (8, c :: d :: rest)
  | 0x30 :: rest => (8, rest)
  | t => (10, t)

/-- Whether the underscores of an unsigned number are well placed. -/
def underscoresFit : Text → Bool
  | 0x30 :: c :: rest =>
    match Ascii.toLower c with
    | 0x62 => separatorsFit false .digit rest
    | 0x6f => separatorsFit false .digit rest
    | 0x78 => separatorsFit true .digit rest
    | _ => separatorsFit false .start (0x30 :: c :: rest)
  | t => separatorsFit false .start t

/-- An unsigned number in the notation of settings. -/
def readUnsigned (t : Text) : Except NumeralFault Nat :=
  if t.isEmpty then .error .malformed
  else
    let (base, digits) := baseOf t
    match readDigits base true 0 digits with
    | .error e => .error e
    | .ok n =>
      if t.contains Ascii.underscore && !underscoresFit t then .error .malformed else .ok n

/-- Puts the sign on a value that must fit into 64 bits. -/
def withSign (negative : Bool) (value : Except NumeralFault Nat) : Except NumeralFault Int :=
  match value with
  | .error e => .error e
  | .ok n =>
    if negative then
      if signBound < n then .error .outOfRange else .ok (-(n : Int))
    else if signBound ≤ n then .error .outOfRange else .ok n

/-- Splits off an optional sign: whether it is a minus, and what follows. -/
def splitSign : Text → Bool × Text
  | Ascii.plus :: rest => (false, rest)
  | Ascii.hyphen :: rest => (true, rest)
  | t => (false, t)

end Numeral

/-- An integer in the notation of settings. -/
def Text.readInt (t : Text) : Except NumeralFault Int :=
  let (negative, digits) := Numeral.splitSign t
  Numeral.withSign negative (Numeral.readUnsigned digits)

/-- A decimal integer. -/
def Text.readDecimal (t : Text) : Except NumeralFault Int :=
  let (negative, digits) := Numeral.splitSign t
  if digits.isEmpty then .error .malformed
  else Numeral.withSign negative (Numeral.readDigits 10 false 0 digits)

/-- A truth value, in one of the spellings that settings and flags accept. -/
def Text.readBool? (t : Text) : Option Bool :=
  if [text "1", text "t", text "T", text "TRUE", text "true", text "True"].contains t then
    some true
  else if [text "0", text "f", text "F", text "FALSE", text "false", text "False"].contains t then
    some false
  else none

end StyleIndex
