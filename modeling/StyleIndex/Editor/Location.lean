import StyleIndex.Visible

set_option autoImplicit false

/-! # Locations and signatures

How a declared symbol is shown: the place of its name, and its signature.
-/

namespace StyleIndex

/-- The positions from `start` up to, and not including, `stop`. -/
structure Range where
  start : Position
  stop : Position
  deriving DecidableEq

/-- A range in a file. -/
structure Location where
  path : Text
  range : Range
  deriving DecidableEq

/-- The range of a name that starts at a position. -/
def rangeOfName (p : Position) (name : Text) : Range :=
  ⟨p, ⟨p.line, p.character + Utf8.characterCount name⟩⟩

/-- Where a symbol is declared. -/
def FoundSymbol.location (f : FoundSymbol) : Location :=
  ⟨f.document, rangeOfName f.position f.name⟩

/-- A parameter as it is shown in a signature. -/
def Parameter.label (p : Parameter) : Text :=
  if p.default.isEmpty then p.name else p.name ++ text ": " ++ p.default

/-- The signature of a callable. -/
def signatureLabel (name : Text) (ps : List Parameter) : Text :=
  name ++ text "(" ++ Text.join (text ", ") (ps.map Parameter.label) ++ text ")"

end StyleIndex
