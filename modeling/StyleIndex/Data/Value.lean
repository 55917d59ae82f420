import StyleIndex.Number.Shortest

set_option autoImplicit false

/-! # Data

Values of the data formats in which settings and arguments come in and answers go out. The
fields of an object keep their order.
-/

namespace StyleIndex

/-- A value of a data format. -/
inductive Value where
  | null
  | bool (b : Bool)
  | int (i : Int)
  | float (x : Binary64)
  | str (t : Text)
  | list (items : List Value)
  | object (fields : List (Text × Value))

namespace Value

mutual

/-- The value as it is shown to a reader: items and fields stand between brackets, divided by
spaces. -/
def display : Value → Text
  | .null => text "<nil>"
  | .bool b => text (if b then "true" else "false")
  | .int i => Text.ofInt i
  | .float x => x.toGeneral
  | .str t => t
  | .list items => text "[" ++ Text.join [Ascii.space] (displayItems items) ++ text "]"
  | .object fields =>
    text "map[" ++
      Text.join [Ascii.space]
        (((displayFields fields).mergeSort fun a b => decide (a.1 ≤ b.1)).map
          fun f => f.1 ++ text ":" ++ f.2) ++
      text "]"

/-- The items of a list as they are shown. -/
def displayItems : List Value → List Text
  | [] => []
  | v :: rest => v.display :: displayItems rest

/-- The fields of an object as they are shown. -/
def displayFields : List (Text × Value) → List (Text × Text)
  | [] => []
  | f :: rest => displayField f :: displayFields rest

/-- One field of an object as it is shown. -/
def displayField : Text × Value → Text × Text
  | (name, v) => (name, v.display)

end

/-- A string or nothing. -/
def ofText? : Option Text → Value
  | some t => .str t
  | none => .null

/-- A list of strings. -/
def ofTexts (ts : List Text) : Value := .list (ts.map .str)

/-- A natural number. -/
def ofNat (n : Nat) : Value := .int n

end Value

end StyleIndex
