import StyleIndex.Digest
import StyleIndex.FileSystem
import StyleIndex.ImportGraph.Basic
import StyleIndex.Store
import StyleIndex.Symbol.Extract

set_option autoImplicit false

/-! # The index of a workspace

What is known about the files of a workspace: their records, the import graph, and the digest of
the content each record was made from. The file holds the smallest step of a scan, which brings
one file up to date.
-/

namespace StyleIndex

/-- What is known about the files of a workspace. -/
structure Index where
  store : Store
  graph : ImportGraph
  /-- The digest of the content behind the record of each path. -/
  digests : Std.ExtTreeMap Text UInt64

/-- What happened to a scanned file. -/
inductive FileOutcome where
  /-- It was read and its record stored. -/
  | scanned
  /-- Its content is that of the stored record. -/
  | unchanged
  /-- It cannot be read, so its record was dropped. -/
  | removed
  /-- It does not parse, and nothing was changed. -/
  | failed (error : ParseError)
  deriving DecidableEq

/-- The outcome for one file, and the imported files that have to be scanned after it. -/
structure FileReport where
  path : Text
  outcome : FileOutcome
  follow : List Text
  deriving DecidableEq

/-- The file an import refers to. -/
inductive ImportedFile where
  /-- It has a record. -/
  | stored (path : Text)
  /-- It is a regular file, and has no record yet. -/
  | onDisk (path : Text)
  /-- There is none; the path is the target of the import. -/
  | absent (path : Text)
  deriving DecidableEq

namespace ImportedFile

/-- The path of the file. -/
def path : ImportedFile → Text
  | .stored p => p
  | .onDisk p => p
  | .absent p => p

/-- The path of a file that has no record yet. -/
def toFollow? : ImportedFile → Option Text
  | .onDisk p => some p
  | _ => none

end ImportedFile

/-- The file that an import with the given target refers to: the first candidate that has a
record, else the first that is a regular file. -/
def Store.importedFile (s : Store) (fs : FileSystem) (target : Text) : ImportedFile :=
  let candidates := importCandidates target
  match candidates.find? fun c => (s.get? c).isSome with
  | some c => .stored (s.key c)
  | none =>
    match candidates.find? fs.isFile with
    | some c => .onDisk (s.key c)
    | none => .absent (s.key target)

/-- The files that the imports of a record refer to, in their order. -/
def Store.importedFiles (s : Store) (fs : FileSystem) (d : Document) : List ImportedFile :=
  (d.imports.filter Import.followable).map fun i => s.importedFile fs i.filepath

namespace Index

/-- The index that knows nothing. -/
def empty (cwd : Text) : Index := ⟨Store.empty cwd, ImportGraph.empty, ∅⟩

/-- Drops everything known about a file. -/
def forget (ix : Index) (path : Text) : Index where
  store := ix.store.erase path
  graph := ix.graph.remove path
  digests := ix.digests.erase path

/-- The record of a path, if it was made from a content with the given digest. -/
def current? (ix : Index) (path : Text) (digest : UInt64) : Option Document :=
  if ix.digests[path]? = some digest then ix.store.get? path else none

/-- Stores the record of a path, made from a content with the given digest. -/
def record (ix : Index) (path : Text) (d : Document) (digest : UInt64) : Index where
  store := ix.store.insert d
  graph := ix.graph
  digests := ix.digests.insert path digest

/-- Makes the edges of the graph that leave a document those of its record. -/
def linkImports (ix : Index) (fs : FileSystem) (d : Document) : Index :=
  { ix with graph := ix.graph.update d.path ((ix.store.importedFiles fs d).map ImportedFile.path) }

/-- The imported files of a record that have no record yet. -/
def unscannedImports (ix : Index) (fs : FileSystem) (d : Document) : List Text :=
  (ix.store.importedFiles fs d).filterMap ImportedFile.toFollow?

/-- Finishes the step for a path whose record is up to date. -/
def finish (ix : Index) (fs : FileSystem) (path : Text) (outcome : FileOutcome) (d : Document) :
    Index × FileReport :=
  (ix.linkImports fs d, ⟨path, outcome, ix.unscannedImports fs d⟩)

/-- Brings one file up to date. In strict mode a file that does not parse changes nothing. -/
def scanFile (ix : Index) (fs : FileSystem) (strict : Bool) (path : Text) : Index × FileReport :=
  match fs.read path with
  | .error _ => (ix.forget path, ⟨path, .removed, []⟩)
  | .ok content =>
    match ix.current? path content.digest with
    | some d => ix.finish fs path .unchanged d
    | none =>
      match extract path content none strict with
      | .error e => (ix, ⟨path, .failed e, []⟩)
      | .ok d => (ix.record path d content.digest).finish fs path .scanned d

end Index

end StyleIndex
