import Std.Data.ExtTreeMap
import Std.Data.ExtTreeSet
import StyleIndex.Text.Basic

set_option autoImplicit false

/-! # The import graph

The graph has an edge from a document to each stylesheet it imports. Besides the graph proper,
two indexes answer the common questions at once: which stylesheets a document imports, and which
documents import it. An index holds no empty entries.
-/

namespace StyleIndex

/-- A set of paths. -/
abbrev PathSet := Std.ExtTreeSet Text

/-! ## Indexes -/

/-- A relation between paths, stored by its left side. -/
abbrev PathIndex := Std.ExtTreeMap Text PathSet

namespace PathIndex

/-- The paths related to a path. -/
def targets (i : PathIndex) (a : Text) : PathSet := i.getD a ∅

/-- Whether two paths are related. -/
def related (i : PathIndex) (a b : Text) : Bool := (i.targets a).contains b

/-- Relates `a` to `b`. -/
def link (i : PathIndex) (a b : Text) : PathIndex := i.insert a ((i.targets a).insert b)

/-- Takes `b` from the paths related to `a`, and drops the entry of `a` when none is left. -/
def unlink (i : PathIndex) (a b : Text) : PathIndex :=
  let rest := (i.targets a).erase b
  if rest.isEmpty then i.erase a else i.insert a rest

end PathIndex

/-! ## Directed graphs -/

/-- A directed graph on paths: each vertex with the ends of the edges that leave it. -/
structure Digraph where
  successors : PathIndex

namespace Digraph

/-- The graph without vertices. -/
def empty : Digraph := ⟨∅⟩

/-- The vertices, in increasing order. -/
def vertices (g : Digraph) : List Text := g.successors.keys

/-- Whether a path is a vertex. -/
def hasVertex (g : Digraph) (v : Text) : Bool := g.successors.contains v

/-- Whether there is an edge from `a` to `b`. -/
def hasEdge (g : Digraph) (a b : Text) : Bool := g.successors.related a b

/-- The ends of the edges that leave a vertex, in increasing order. -/
def next (g : Digraph) (v : Text) : List Text := (g.successors.targets v).toList

/-- Adds a vertex. -/
def addVertex (g : Digraph) (v : Text) : Digraph :=
  if g.hasVertex v then g else ⟨g.successors.insert v ∅⟩

/-- Adds an edge, if both its ends are vertices. -/
def addEdge (g : Digraph) (a b : Text) : Digraph :=
  if g.hasVertex a && g.hasVertex b then ⟨g.successors.link a b⟩ else g

/-- Removes an edge; its ends stay. -/
def removeEdge (g : Digraph) (a b : Text) : Digraph :=
  if g.hasVertex a then ⟨g.successors.insert a ((g.successors.targets a).erase b)⟩ else g

/-- Whether an edge leaves or enters a vertex. -/
def hasEdgeAt (g : Digraph) (v : Text) : Bool :=
  !(g.successors.targets v).isEmpty || g.vertices.any fun a => g.hasEdge a v

/-- Removes a vertex that no edge touches; any other stays. -/
def removeVertex (g : Digraph) (v : Text) : Digraph :=
  if g.hasEdgeAt v then g else ⟨g.successors.erase v⟩

end Digraph

/-! ## Import graphs -/

/-- The import edges of a workspace. -/
structure ImportGraph where
  /-- The graph proper. -/
  graph : Digraph
  /-- The stylesheets each document imports. -/
  imported : PathIndex
  /-- The documents that import each stylesheet. -/
  importing : PathIndex

namespace ImportGraph

/-- The graph without edges. -/
def empty : ImportGraph := ⟨Digraph.empty, ∅, ∅⟩

/-- The stylesheets a document imports, in increasing order. -/
def dependencies (g : ImportGraph) (path : Text) : List Text := (g.imported.targets path).toList

/-- The documents that import a stylesheet, in increasing order. -/
def dependents (g : ImportGraph) (path : Text) : List Text := (g.importing.targets path).toList

/-- Drops a vertex that no edge touches. -/
def prune (g : ImportGraph) (path : Text) : ImportGraph :=
  if (g.imported.targets path).isEmpty && (g.importing.targets path).isEmpty then
    { g with graph := g.graph.removeVertex path }
  else g

/-- Adds an edge and its end. -/
def addEdge (g : ImportGraph) (path target : Text) : ImportGraph where
  graph := (g.graph.addVertex target).addEdge path target
  imported := g.imported.link path target
  importing := g.importing.link target path

/-- Removes an edge, and its end if nothing else touches it. -/
def removeEdge (g : ImportGraph) (path target : Text) : ImportGraph :=
  prune
    { graph := g.graph.removeEdge path target
      imported := g.imported.unlink path target
      importing := g.importing.unlink target path }
    target

/-- Makes the edges that leave a document those to the given targets. A document has no edge to
itself. -/
def update (g : ImportGraph) (path : Text) (targets : List Text) : ImportGraph :=
  let wanted := targets.filter (· ≠ path)
  let old := g.dependencies path
  let stale := old.filter fun t => !wanted.contains t
  let fresh := (Text.sortUnique wanted).filter fun t => !old.contains t
  let g := { g with graph := g.graph.addVertex path }
  let g := stale.foldl (fun g t => g.removeEdge path t) g
  fresh.foldl (fun g t => g.addEdge path t) g

/-- Removes the edges that leave a document. Its vertex stays while others import it. -/
def remove (g : ImportGraph) (path : Text) : ImportGraph :=
  ((g.dependencies path).foldl (fun g t => g.removeEdge path t) g).prune path

end ImportGraph

end StyleIndex
