import StyleIndex.Index.Basic
import StyleIndex.Settings.Basic

set_option autoImplicit false

/-! # Scans

A scan brings files up to date in *waves*. The first wave holds the given files; each further
wave holds the imported files that the wave before it met for the first time. No path is scanned
twice.

The caller may give up in the middle. How long it waits is a value, its *patience*: the number of
files after which it gives up, or nothing when it never does. Files that are left then are not
touched.
-/

namespace StyleIndex

/-- How many more files are scanned before the caller gives up; nothing when it never does. -/
abbrev Patience := Option Nat

namespace Patience

/-- Whether the caller has given up. -/
def isOver (p : Patience) : Bool := p == some 0

/-- What is left after one more file. -/
def afterFile (p : Patience) : Patience := p.map (· - 1)

end Patience

/-- One wave: the number of files in it, and the reports on those that were scanned. -/
structure ScanWave where
  size : Nat
  reports : List FileReport
  deriving DecidableEq

/-- How many files a scan looked at, by outcome. -/
structure ScanStats where
  scanned : Nat
  unchanged : Nat
  removed : Nat
  failed : Nat
  deriving DecidableEq

namespace ScanStats

/-- The counts of a scan that looked at nothing. -/
def zero : ScanStats := ⟨0, 0, 0, 0⟩

/-- The number of files looked at. -/
def total (s : ScanStats) : Nat := s.scanned + s.unchanged + s.removed + s.failed

/-- The counts with one more file. -/
def add (s : ScanStats) : FileOutcome → ScanStats
  | .scanned => { s with scanned := s.scanned + 1 }
  | .unchanged => { s with unchanged := s.unchanged + 1 }
  | .removed => { s with removed := s.removed + 1 }
  | .failed _ => { s with failed := s.failed + 1 }

end ScanStats

/-- What a scan tells its caller on the way. -/
inductive ScanEvent where
  | discoveryStarted
  | discovered (files : Nat)
  | waveStarted (files : Nat)
  | fileScanned (path : Text)
  | completed (total : Nat)
  deriving DecidableEq

/-- A finished scan: the index it leaves, what is left of the patience, and its waves. -/
structure ScanRun where
  index : Index
  patience : Patience
  waves : List ScanWave

namespace ScanRun

/-- The reports on all scanned files, in order. -/
def reports (r : ScanRun) : List FileReport := r.waves.flatMap ScanWave.reports

/-- The counts of the scan. -/
def stats (r : ScanRun) : ScanStats :=
  (r.reports.map FileReport.outcome).foldl ScanStats.add ScanStats.zero

/-- The parse errors of the scan, in order. -/
def errors (r : ScanRun) : List ParseError :=
  r.reports.filterMap fun report =>
    match report.outcome with
    | .failed e => some e
    | _ => none

/-- Whether the caller gave up. -/
def canceled (r : ScanRun) : Bool := r.patience.isOver

/-- What the scan told its caller. -/
def events (r : ScanRun) : List ScanEvent :=
  (r.waves.flatMap fun w =>
    .waveStarted w.size :: w.reports.map fun report => .fileScanned report.path) ++
    [.completed r.stats.total]

end ScanRun

/-- The clean absolute forms of the paths that are not yet queued, each once, and the queue with
them added. -/
def enqueue (key : Text → Text) (queued : PathSet) : List Text → PathSet × List Text
  | [] => (queued, [])
  | p :: rest =>
    if queued.contains (key p) then enqueue key queued rest
    else
      let (queued, fresh) := enqueue key (queued.insert (key p)) rest
      (queued, key p :: fresh)

namespace Index

/-- Scans the files of one wave in order, as long as the patience lasts. -/
def scanWave (fs : FileSystem) (strict : Bool) : Index → Patience → List Text →
    Index × Patience × List FileReport
  | ix, patience, [] => (ix, patience, [])
  | ix, patience, path :: rest =>
    if patience.isOver then (ix, patience, [])
    else
      let (ix, report) := ix.scanFile fs strict path
      let (ix, patience, reports) := scanWave fs strict ix patience.afterFile rest
      (ix, patience, report :: reports)

/-- Scans wave after wave, at most `limit` of them. -/
def scanWaves (fs : FileSystem) (s : Settings) : (limit : Nat) → PathSet → Index → Patience →
    List Text → ScanRun
  | 0, _, ix, patience, _ => ⟨ix, patience, []⟩
  | limit + 1, queued, ix, patience, wave =>
    if wave.isEmpty || patience.isOver then ⟨ix, patience, []⟩
    else
      let (ix, patience, reports) := ix.scanWave fs s.showErrors patience wave
      let follow := if s.scanImportedFiles then reports.flatMap FileReport.follow else []
      let (queued, next) := enqueue ix.store.key queued follow
      let run := scanWaves fs s limit queued ix patience next
      { run with waves := ⟨wave.length, reports⟩ :: run.waves }

/-- Scans the given files and, if the settings say so, the files they import. Every wave after
the first holds a file that no wave before it held, so their number is bounded by the number of
files. -/
def scan (ix : Index) (fs : FileSystem) (s : Settings) (patience : Patience) (paths : List Text) :
    ScanRun :=
  let (queued, wave) := enqueue ix.store.key ∅ paths
  scanWaves fs s (fs.top.fileCount + 1) queued ix patience wave

end Index

end StyleIndex
