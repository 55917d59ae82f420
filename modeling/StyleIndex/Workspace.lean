import StyleIndex.Discovery.Walk
import StyleIndex.Editor.Cursor
import StyleIndex.ImportGraph.Cycle
import StyleIndex.ImportGraph.Query
import StyleIndex.Index.Scan
import StyleIndex.Search.Basic
import StyleIndex.Settings.Validate
import StyleIndex.Watcher

set_option autoImplicit false

/-! # Workspaces

A workspace is a root directory with its settings and the index of its stylesheets. It is always
a value with usable settings; the file system it is read from is given to the operations that
read it.
-/

namespace StyleIndex

/-- One indexed root. -/
structure Workspace where
  root : Text
  settings : Settings
  index : Index
  /-- Whether changes are being watched for. -/
  watching : Bool
  /-- Whether the workspace has been closed. -/
  closed : Bool

/-- Why a scan was not clean. -/
inductive ScanFailure where
  | discovery (error : DiscoveryError)
  /-- Files that do not parse, and whether the caller gave up. -/
  | files (errors : List ParseError) (canceled : Bool)
  deriving DecidableEq

/-- The wording of a failure. -/
def ScanFailure.message : ScanFailure → Text
  | .discovery e => text "failed to discover files: " ++ e.message
  | .files errors canceled =>
    Text.join [Ascii.lf]
      (errors.map ParseError.message ++ if canceled then [text "context canceled"] else [])

/-- What a scan of a workspace tells its caller. -/
structure ScanSummary where
  stats : ScanStats
  events : List ScanEvent
  failure : Option ScanFailure

/-- Whether the scan ran to its end, as opposed to one that found no files to begin with. -/
def ScanSummary.isComplete (s : ScanSummary) : Bool :=
  s.events.contains (.completed s.stats.total)

/-- The failure of a finished scan. -/
def ScanRun.failure? (r : ScanRun) : Option ScanFailure :=
  if r.errors.isEmpty && !r.canceled then none else some (.files r.errors r.canceled)

/-- What a finished scan tells its caller. -/
def ScanRun.summary (r : ScanRun) : ScanSummary := ⟨r.stats, r.events, r.failure?⟩

/-- Why changes cannot be watched for. -/
inductive WatchError where
  | badPattern (error : GlobError)
  | unreadable (root : Text) (fault : FileFault)
  deriving DecidableEq

/-- The wording of the error. -/
def WatchError.message : WatchError → Text
  | .badPattern e => text "failed to compile exclude patterns: " ++ e.message
  | .unreadable root fault => text "failed to create watcher: " ++ fault.lookMessage root

/-- Why a buffer cannot be opened. -/
structure OpenError where
  path : Text
  fault : FileFault
  deriving DecidableEq

/-- The wording of the error. -/
def OpenError.message (e : OpenError) : Text :=
  text "failed to read " ++ e.path ++ text ": " ++ e.fault.readMessage e.path

/-- Reads a file as an editor buffer. -/
def Buffer.ofFile (fs : FileSystem) (path : Text) : Except OpenError Buffer :=
  let path := fs.absolute path
  match fs.read path with
  | .ok content => .ok ⟨path, content⟩
  | .error fault => .error ⟨path, fault⟩

namespace Workspace

/-- An empty workspace, or the faults of the settings. -/
def create (cwd root : Text) (s : Settings) : Except (List SettingsFault) Workspace :=
  match s.faults with
  | [] => .ok ⟨Path.absolute cwd root, s, Index.empty cwd, false, false⟩
  | faults => .error faults

/-- The records of a workspace. -/
def store (w : Workspace) : Store := w.index.store

/-- Scans the given files. -/
def scan (w : Workspace) (fs : FileSystem) (patience : Patience) (paths : List Text) :
    Workspace × ScanSummary :=
  let run := w.index.scan fs w.settings patience paths
  ({ w with index := run.index }, run.summary)

/-- Scans every stylesheet below the root, and the files that have a record, so that records of
deleted files are dropped. -/
def reindex (w : Workspace) (fs : FileSystem) (patience : Patience) : Workspace × ScanSummary :=
  match discover fs w.root w.settings patience.isOver with
  | .error e => (w, ⟨ScanStats.zero, [.discoveryStarted], some (.discovery e)⟩)
  | .ok files =>
    let (w, summary) := w.scan fs patience (files ++ w.store.documents.map Document.path)
    (w, { summary with
      events := .discoveryStarted :: .discovered files.length :: summary.events })

/-- Takes new settings into use, or reports their faults. The digests are dropped, so that the
next scan reads every file again. -/
def setSettings (w : Workspace) (s : Settings) : Except (List SettingsFault) Workspace :=
  match s.faults with
  | [] => .ok { w with settings := s, index := { w.index with digests := ∅ } }
  | faults => .error faults

/-- Answers a question about a cursor in a buffer. -/
def answer (w : Workspace) (b : Buffer) (offset : Int) (question : CursorQuestion) :
    Except ParseError CursorAnswer :=
  w.store.answer w.settings b offset question

/-- The symbols of the workspace that match a query. -/
def symbols (w : Workspace) (query : Text) : List SymbolHit := w.store.search w.root query

/-- The files a file imports. -/
def dependencies (w : Workspace) (path : Text) : List Text :=
  w.index.graph.dependencies (w.store.key path)

/-- The files that import a file. -/
def dependents (w : Workspace) (path : Text) : List Text :=
  w.index.graph.dependents (w.store.key path)

/-- The groups of files that import each other. -/
def cycles (w : Workspace) : List (List Text) := w.index.graph.cycles

/-- Answers a query about the import graph. -/
def query (w : Workspace) (canceled : Bool) (q : GraphQuery) : Except QueryError QueryAnswer :=
  w.index.graph.query canceled { q with target := w.store.key q.target }

/-- Begins to watch for changes. A workspace that does so already stays as it is. -/
def watch (w : Workspace) (fs : FileSystem) : Except WatchError Workspace :=
  if w.watching then .ok w
  else match Discovery.ofSettings w.root w.settings with
    | .error e => .error (.badPattern e)
    | .ok d =>
      match Watcher.create fs w.root Watcher.defaultExtensions (some d) with
      | .error fault => .error (.unreadable w.root fault)
      | .ok _ => .ok { w with watching := true }

/-- Stops watching and drops everything that is known. Later calls do nothing. -/
def close (w : Workspace) : Workspace :=
  if w.closed then w
  else { w with index := Index.empty w.store.cwd, watching := false, closed := true }

end Workspace

end StyleIndex
