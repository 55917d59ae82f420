import StyleIndex.Editor.Location
import StyleIndex.Search.Similarity
import StyleIndex.Text.Case

set_option autoImplicit false

/-! # Symbol search

A search finds the symbols below a directory whose names have the bytes of the query in order,
case being ignored. Names that contain the query as a whole come first; within each group the
more similar name comes first, then the order is by path and offset. An empty query finds
everything.
-/

namespace StyleIndex

/-- A symbol found by a search. -/
structure SymbolHit where
  name : Text
  kind : SymbolKind
  location : Location
  deriving DecidableEq

/-- A symbol found by a search, with what it is ranked by. -/
structure RankedHit where
  hit : SymbolHit
  offset : Nat
  score : Float

/-- The similarity of two words. -/
def wordSimilarity (a b : Text) : Float :=
  if a = b then 1.0
  else
    let codes := fun t => (Utf8.characters t).map Utf8.code
    (Similarity.jaroWinkler (codes a) (codes b)).toFloat

/-- The score of a name for a query in lower case; nothing when the name does not match. -/
def matchScore? (name lowerQuery : Text) : Option Float :=
  if lowerQuery.isEmpty then some 1.0
  else
    let lowerName := Text.toLower name
    if Text.includes lowerName lowerQuery then some (1.0 + wordSimilarity lowerName lowerQuery)
    else if Text.isSubsequence lowerQuery lowerName then some (wordSimilarity lowerName lowerQuery)
    else none

/-- The symbols of a document: name, kind, offset and position of each. -/
def Document.symbols (d : Document) : List (Text × SymbolKind × Nat × Position) :=
  d.vars.map (fun v => (v.name, .variableSymbol, v.offset, v.position)) ++
  d.mixins.map (fun m => (m.name, .mixin, m.offset, m.position)) ++
  d.functions.map (fun f => (f.name, .function, f.offset, f.position))

/-- The symbols of a document that match a query in lower case. -/
def Document.hits (lowerQuery : Text) (d : Document) : List RankedHit :=
  d.symbols.filterMap fun (name, kind, offset, position) =>
    (matchScore? name lowerQuery).map fun score =>
      ⟨⟨name, kind, ⟨d.path, rangeOfName position name⟩⟩, offset, score⟩

/-- Whether `a` is ranked strictly before `b`. -/
def RankedHit.before (a b : RankedHit) : Bool :=
  if a.score != b.score then b.score < a.score
  else if a.hit.location.path ≠ b.hit.location.path then
    a.hit.location.path < b.hit.location.path
  else a.offset < b.offset

/-- The symbols below the directory `root` that match a query, best first. -/
def Store.search (s : Store) (root query : Text) : List SymbolHit :=
  let documents := s.documents.filter fun d => Path.isUnder (s.key root) d.path
  let hits := documents.flatMap (Document.hits (Text.toLower query))
  (hits.mergeSort fun a b => !b.before a).map (·.hit)

end StyleIndex
