import StyleIndex.Data.Coerce
import StyleIndex.Data.Json
import StyleIndex.Text.Blank
import StyleIndex.Text.Case

set_option autoImplicit false

/-! # Arguments of tools

Arguments come as an object. Some clients send every argument as a string, so a string may hold a
JSON number where a number is wanted, and a JSON list where a list is wanted.
-/

namespace StyleIndex

namespace Argument

/-- The argument with the given name: the one spelled exactly so, else the first that differs only
in case. A missing argument and one without a value are the same. -/
def find? (arguments : List (Text × Value)) (name : Text) : Option Value :=
  let found : Option Value :=
    ((arguments.reverse.find? fun a => a.1 == name).or
      (arguments.find? fun a => Text.equalsIgnoringCase a.1 name)).map (·.2)
  match found with
  | some .null => none
  | v => v

/-- Whether a text is a JSON number. -/
def isJsonNumber (t : Text) : Bool :=
  match Json.readNumeral t with
  | some (_, []) => true
  | _ => false

/-- The JSON number that a text holds, either by itself or inside a JSON string. The JSON word for
nothing holds an empty number. -/
def heldNumber? (t : Text) : Option Text :=
  if t = text "null" then some []
  else if isJsonNumber t then some t
  else match t with
    | Ascii.quote :: rest =>
      match Json.readString rest with
      | some (s, []) => if isJsonNumber s then some s else none
      | _ => none
    | _ => none

/-- The JSON list of strings that a text holds. -/
def heldList? (t : Text) : Option (List Text) :=
  if Text.startsWith t [Ascii.lbracket] && Text.endsWith t [Ascii.rbracket] then
    match Value.ofJson? t with
    | some (.list items) =>
      items.mapM fun
        | .str s => some s
        | .null => some []
        | _ => none
    | _ => none
  else none

/-- An argument as a whole number. -/
def toInt? (v : Value) : Option Int :=
  match v with
  | .str t =>
    let trimmed := Text.trimBlank t
    if trimmed.isEmpty then v.toInt?
    else match heldNumber? trimmed with
      | some number => (Value.str number).toInt?
      | none => v.toInt?
  | _ => v.toInt?

/-- An argument as a list of texts. -/
def toTexts? (v : Value) : Option (List Text) :=
  match v with
  | .str t =>
    match heldList? (Text.trimBlank t) with
    | some items => some items
    | none => v.toTexts?
  | _ => v.toTexts?

end Argument

end StyleIndex
