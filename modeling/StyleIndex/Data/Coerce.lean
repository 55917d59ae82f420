import StyleIndex.Data.Value
import StyleIndex.Text.Numeral

set_option autoImplicit false

/-! # Lenient conversion

Settings and arguments often come as values of a neighbouring type: a number as a string, a list
as one string. A conversion takes what can be meant in only one way and refuses the rest.
-/

namespace StyleIndex

/-- A number reduced to a signed 64-bit value. -/
def wrapWord (i : Int) : Int := Int.bmod i 18446744073709551616

namespace Value

/-- The value as a whole number. The empty string is zero, and a fraction is cut off. -/
def toInt? : Value → Option Int
  | .int i => some (wrapWord i)
  | .float x => some x.truncate
  | .bool b => some (if b then 1 else 0)
  | .str t => if t.isEmpty then some 0 else t.readInt.toOption
  | _ => none

/-- The value as a truth value. The empty string is false, and so is zero. -/
def toBool? : Value → Option Bool
  | .bool b => some b
  | .int i => some (i ≠ 0)
  | .float x => some (!x.isZero)
  | .str t => if t.isEmpty then some false else t.readBool?
  | _ => none

/-- The value as a text. -/
def toText? : Value → Option Text
  | .str t => some t
  | .int i => some (Text.ofInt i)
  | .float x => some x.toPlain
  | .bool b => some (text (if b then "1" else "0"))
  | _ => none

/-- An item of a list as a text; a missing one is empty. -/
def itemText? : Value → Option Text
  | .null => some []
  | v => v.toText?

/-- The value as a list of texts. A string is split at its commas, and any other value that is no
list is the only item. -/
def toTexts? : Value → Option (List Text)
  | .list items => items.mapM itemText?
  | .str t => some (if t.isEmpty then [] else Text.splitOn Ascii.comma t)
  | .object fields => if fields.isEmpty then some [] else none
  | v => (itemText? v).map ([·])

end Value

end StyleIndex
