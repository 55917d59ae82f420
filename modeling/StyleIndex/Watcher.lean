import StyleIndex.Discovery.Walk
import StyleIndex.ImportGraph.Basic

set_option autoImplicit false

/-! # Watching for changes

A watcher turns notifications about single paths into *batches* of changed stylesheets. A change
is kept as pending and a timer is started anew; when the timer expires it leaves a token, and
handling the token delivers everything that is pending as one batch. While the watcher is paused
no batch is delivered; resuming delivers what has come together.

The file first describes this as a system of steps, then the filter that decides which
notifications count and which directories are watched.
-/

namespace StyleIndex

/-! ## Batches -/

/-- What a watcher holds back. -/
structure PendingChanges where
  /-- The changed paths that have not been delivered. -/
  pending : PathSet
  /-- Whether the timer is running. -/
  timerArmed : Bool
  /-- Whether an expired timer has left a token. There is room for one. -/
  token : Bool
  paused : Bool

/-- One step of a watcher. -/
inductive WatchStep where
  /-- A change that counts. -/
  | accept (path : Text)
  /-- The timer expires. -/
  | expire
  /-- The token is handled. -/
  | handleToken
  | pause
  | resume
  deriving DecidableEq

namespace PendingChanges

/-- Nothing has happened yet. -/
def start : PendingChanges := ⟨∅, false, false, false⟩

/-- Delivers what is pending, if there is anything, in increasing order. -/
def flush (c : PendingChanges) : PendingChanges × Option (List Text) :=
  if c.pending.isEmpty then (c, none) else ({ c with pending := ∅ }, some c.pending.toList)

/-- What a step leaves, and the batch it delivers. A timer that is not running does not expire,
and without a token there is nothing to handle. -/
def step (c : PendingChanges) : WatchStep → PendingChanges × Option (List Text)
  | .accept path => ({ c with pending := c.pending.insert path, timerArmed := true }, none)
  | .expire => (if c.timerArmed then { c with timerArmed := false, token := true } else c, none)
  | .handleToken =>
    if c.token then
      if c.paused then ({ c with token := false }, none) else { c with token := false }.flush
    else (c, none)
  | .pause => ({ c with paused := true }, none)
  | .resume => if c.paused then { c with paused := false }.flush else (c, none)

/-- What several steps leave, and the batches they deliver, in order. -/
def run (c : PendingChanges) : List WatchStep → PendingChanges × List (List Text)
  | [] => (c, [])
  | s :: rest =>
    let (c, batch) := c.step s
    let (c, batches) := run c rest
    (c, batch.toList ++ batches)

end PendingChanges

/-! ## Notifications -/

/-- A notification: what happened to a path. -/
structure FileEvent where
  path : Text
  created : Bool
  written : Bool
  removed : Bool
  renamed : Bool

/-- A watcher. -/
structure Watcher where
  /-- The directory whose content is watched. -/
  root : Text
  /-- The extensions that count, in lower case. -/
  extensions : List Text
  /-- What is ignored, if anything is. -/
  ignore : Option Discovery
  /-- The watched directories. -/
  directories : PathSet
  /-- Whether notifications are handled. -/
  running : Bool
  changes : PendingChanges

namespace Watcher

/-- The extensions that count when none are given. -/
def defaultExtensions : List Text := [text ".scss"]

/-- Whether a path is ignored. -/
def ignores (w : Watcher) (path : Text) : Bool :=
  match w.ignore with
  | some d => d.ignored path
  | none => false

/-- Whether a directory and everything in it is left out. The root never is. -/
def leavesOut (w : Watcher) (path : Text) : Bool := decide (path ≠ w.root) && w.ignores path

/-- The directories to watch below a directory and itself. One that cannot be listed is not
watched. -/
def directoriesBelow (w : Watcher) (fs : FileSystem) (path : Text) (inside : Directory) :
    List Text :=
  let enter := fun names =>
    !w.ignores (Path.join (path :: names)) && fs.lists (Path.join (path :: names))
  Path.clean path :: (inside.folders enter []).map fun names => Path.join (path :: names)

/-- Watches a directory and those below it. -/
def watch (w : Watcher) (fs : FileSystem) (path : Text) : Except FileFault Watcher :=
  match fs.find path with
  | .error fault => .error fault
  | .ok (.file _) => .ok w
  | .ok (.folder access inside) =>
    if w.leavesOut path then .ok w
    else if access.listed then
      .ok { w with
        directories := (w.directoriesBelow fs path inside).foldl .insert w.directories }
    else .error .unlisted

/-- A watcher of the directory `root`, which does not handle notifications yet. The extensions
are compared without regard to case. -/
def create (fs : FileSystem) (root : Text) (extensions : List Text) (ignore : Option Discovery) :
    Except FileFault Watcher :=
  let root := fs.absolute root
  watch ⟨root, extensions.map Text.toLower, ignore, ∅, false, .start⟩ fs root

/-- Begins to handle notifications. -/
def start (w : Watcher) : Watcher := { w with running := true }

/-- Ends the handling of notifications and watches nothing any more. -/
def stop (w : Watcher) : Watcher := { w with running := false, directories := ∅ }

/-- Whether a notification counts: something happened to the content or the name of a file with
the right extension that is not ignored. -/
def counts (w : Watcher) (e : FileEvent) : Bool :=
  (e.written || e.created || e.removed || e.renamed) &&
    w.extensions.contains (Text.toLower (Path.extension e.path)) && !w.ignores e.path

/-- A step of a watcher. -/
def step (w : Watcher) (s : WatchStep) : Watcher × Option (List Text) :=
  let (changes, batch) := w.changes.step s
  ({ w with changes := changes }, batch)

/-- Handles a notification. A new directory is watched, any other change that counts becomes
pending. -/
def notify (w : Watcher) (fs : FileSystem) (e : FileEvent) : Watcher :=
  if !w.running then w
  else if e.created && fs.isDirectory e.path then
    match w.watch fs e.path with
    | .ok w => w
    | .error _ => w
  else if w.counts e then (w.step (.accept e.path)).1
  else w

end Watcher

end StyleIndex
