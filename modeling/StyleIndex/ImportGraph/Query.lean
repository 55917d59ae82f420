import StyleIndex.ImportGraph.Basic

set_option autoImplicit false

/-! # Graph queries

A query walks the import graph from a document in one direction, level by level, and reports
each document once, at the level at which it is first met. The document it starts from is never
reported.
-/

namespace StyleIndex

/-- The direction of a query. -/
inductive Direction where
  | dependencies
  | dependents
  deriving DecidableEq

/-- The name of a direction. -/
def Direction.name : Direction → Text
  | .dependencies => text "dependencies"
  | .dependents => text "dependents"

/-- The direction with the given name. -/
def Direction.ofName? (name : Text) : Option Direction :=
  [Direction.dependencies, .dependents].find? (·.name = name)

/-- A document met by a query and its distance from the start. -/
structure Reached where
  path : Text
  depth : Nat
  deriving DecidableEq

/-- A query: the name of its operation, the document to start from, and two limits, which may
be left at zero or below for their defaults. -/
structure GraphQuery where
  operation : Text
  target : Text
  depth : Int
  maxResults : Int

/-- Why a query has no answer. -/
inductive QueryError where
  | unsupported (operation : Text)
  | canceled
  deriving DecidableEq

/-- The wording of a query error. -/
def QueryError.message : QueryError → Text
  | .unsupported operation => text "unsupported operation: " ++ operation
  | .canceled => text "context canceled"

/-- The answer to a query. -/
structure QueryAnswer where
  operation : Text
  target : Text
  results : List Reached
  totalFound : Nat
  totalReturned : Nat
  truncated : Bool
  deriving DecidableEq

namespace GraphQuery

/-- The number of levels a query walks: one by default and ten at most. -/
def effectiveDepth (q : GraphQuery) : Nat := if q.depth ≤ 0 then 1 else min q.depth.toNat 10

/-- The number of results a query returns at most: a hundred by default. -/
def effectiveMaxResults (q : GraphQuery) : Nat :=
  if q.maxResults ≤ 0 then 100 else q.maxResults.toNat

end GraphQuery

/-- The neighbours of a list of paths that are not in `visited`, each once, in the order in
which they are met. -/
def newNeighbours (next : Text → List Text) (visited frontier : List Text) : List Text :=
  (frontier.flatMap next).foldl
    (fun found p => if visited.contains p || found.contains p then found else found ++ [p]) []

/-- Walks up to the given number of levels, the first of which has the number `level`. -/
def walkLevels (next : Text → List Text) : (count level : Nat) → (visited frontier : List Text) →
    List Reached
  | 0, _, _, _ => []
  | count + 1, level, visited, frontier =>
    match newNeighbours next visited frontier with
    | [] => []
    | upcoming =>
      upcoming.map (⟨·, level⟩) ++ walkLevels next count (level + 1) (visited ++ upcoming) upcoming

/-- The neighbours of a document in one direction. -/
def ImportGraph.neighbours (g : ImportGraph) : Direction → Text → List Text
  | .dependencies => g.dependencies
  | .dependents => g.dependents

/-- Answers a query. `canceled` says that the caller has given up before the walk began. -/
def ImportGraph.query (g : ImportGraph) (canceled : Bool) (q : GraphQuery) :
    Except QueryError QueryAnswer :=
  match Direction.ofName? q.operation with
  | none => .error (.unsupported q.operation)
  | some direction =>
    if canceled then .error .canceled
    else
      let found := walkLevels (g.neighbours direction) q.effectiveDepth 1 [q.target] [q.target]
      let results := found.take q.effectiveMaxResults
      .ok ⟨q.operation, q.target, results, found.length, results.length,
        decide (results.length < found.length)⟩

end StyleIndex
