import StyleIndex.Text.Basic

set_option autoImplicit false

/-! # Reference comments

A line comment of the form `// <reference path="…">` or `// <reference path="…"/>` imports a
file for the index only. The path runs to the last quote on its line that is followed by the end
of the tag, whatever the kinds of the two quotes. White space may stand after `//`, before
`path`, and around the end of the tag.
-/

namespace StyleIndex

namespace Reference

/-- Passes over white space. -/
def skipSpace (t : Text) : Text := t.dropWhile Ascii.isSpace

/-- Passes over a word that must stand here. -/
def expect? (word t : Text) : Option Text :=
  if Text.startsWith t word then some (t.drop word.length) else none

/-- What follows the end of a tag, `>` or `/>` after white space. -/
def tagEnd? (t : Text) : Option Text :=
  match skipSpace t with
  | Ascii.greater :: rest => some rest
  | Ascii.slash :: Ascii.greater :: rest => some rest
  | _ => none

/-- The path and what follows the tag, from just after the opening quote: the last quote on the
line that is followed by the end of the tag closes the path. -/
def pathEnd? : Text → Option (Text × Text)
  | [] => none
  | c :: rest =>
    if c = Ascii.lf then none
    else match pathEnd? rest with
      | some (path, after) => some (c :: path, after)
      | none => if Ascii.isQuote c then (tagEnd? rest).map (([], ·)) else none

/-- The path of the reference comment at the front of a text and what follows it. -/
def atFront? (t : Text) : Option (Text × Text) := do
  let t ← expect? (text "//") t
  let t ← expect? (text "<reference") (skipSpace t)
  let t ← expect? (text "path=") (skipSpace t)
  match t with
  | [] => none
  | q :: rest => if Ascii.isQuote q then pathEnd? rest else none

/-- The paths of all reference comments of a text, from left to right. After a comment the
search goes on behind it. -/
def paths : Text → List Text
  | [] => []
  | c :: rest =>
    match atFront? (c :: rest) with
    | some (path, after) => path :: paths (rest.drop (rest.length - after.length))
    | none => paths rest
termination_by t => t.length
decreasing_by all_goals (simp only [List.length_drop, List.length_cons]; omega)

end Reference

end StyleIndex
