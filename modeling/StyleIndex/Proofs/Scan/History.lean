import Mathlib.Tactic
import StyleIndex.Proofs.Files.Discovery
import StyleIndex.Proofs.Scan.Step

set_option autoImplicit false

/-! # Histories of a workspace

A history is a row of actions on the files and the workspace: files are written and removed or
changed in any other way, the workspace is scanned, in part or as a whole, and its settings are
changed. `Session.perform` is the effect of one action, and `Session.views` what can be seen after
each.

The scans are also given with the step for one file left open, so that two ways to bring a file up
to date can be compared over whole histories: `refreshFile` reads the record off the content every
time, and `scanFileRecalling` asks for the stored digest only where it is told to. With `scanFile`
as the step these are the scans of the workspace (`performBy_scanFile`).

`contentsDuring` lists what the files hold in the course of a history; whatever a scan reads is
among it (`mem_contents_of_read`).
-/

namespace StyleIndex

/-! ## Scans with the step left open -/

/-- A way to bring one file up to date, in strict or lenient mode. -/
abbrev FileStep := Index → FileSystem → Bool → Text → Index × FileReport

namespace Index

/-- Brings one file up to date from its content, whatever its digest is. -/
def refreshFile : FileStep := fun ix fs strict path =>
  match fs.read path with
  | .error _ => (ix.forget path, ⟨path, .removed, []⟩)
  | .ok content =>
    match extract path content none strict with
    | .error e => (ix, ⟨path, .failed e, []⟩)
    | .ok d => (ix.record path d content.digest).finish fs path .scanned d

/-- Brings one file up to date; the digest of the file is at hand only if `recalls` says so. -/
def scanFileRecalling (recalls : Text → Bool) : FileStep := fun ix fs strict path =>
  if recalls path then ix.scanFile fs strict path else ix.refreshFile fs strict path

/-- Takes the files of one wave through the step. -/
def scanWaveBy (step : FileStep) (fs : FileSystem) (strict : Bool) : Index → Patience →
    List Text → Index × Patience × List FileReport
  | ix, patience, [] => (ix, patience, [])
  | ix, patience, path :: rest =>
    if patience.isOver then (ix, patience, [])
    else
      let (ix, report) := step ix fs strict path
      let (ix, patience, reports) := scanWaveBy step fs strict ix patience.afterFile rest
      (ix, patience, report :: reports)

/-- Takes wave after wave through the step, at most `limit` of them. -/
def scanWavesBy (step : FileStep) (fs : FileSystem) (s : Settings) : (limit : Nat) → PathSet →
    Index → Patience → List Text → ScanRun
  | 0, _, ix, patience, _ => ⟨ix, patience, []⟩
  | limit + 1, queued, ix, patience, wave =>
    if wave.isEmpty || patience.isOver then ⟨ix, patience, []⟩
    else
      let (ix, patience, reports) := scanWaveBy step fs s.showErrors ix patience wave
      let follow := if s.scanImportedFiles then reports.flatMap FileReport.follow else []
      let (queued, next) := enqueue ix.store.key queued follow
      let run := scanWavesBy step fs s limit queued ix patience next
      { run with waves := ⟨wave.length, reports⟩ :: run.waves }

/-- Takes the given files, and those they import, through the step. -/
def scanBy (step : FileStep) (ix : Index) (fs : FileSystem) (s : Settings) (patience : Patience)
    (paths : List Text) : ScanRun :=
  let (queued, wave) := enqueue ix.store.key ∅ paths
  scanWavesBy step fs s (fs.top.fileCount + 1) queued ix patience wave

/-- With all digests at hand the step is the plain one. -/
theorem scanFileRecalling_true : scanFileRecalling (fun _ => true) = scanFile := rfl

theorem scanWaveBy_scanFile (fs : FileSystem) (strict : Bool) (wave : List Text) :
    ∀ (ix : Index) (patience : Patience),
      scanWaveBy scanFile fs strict ix patience wave = scanWave fs strict ix patience wave := by
  induction wave with
  | nil =>
      intro ix patience
      rfl
  | cons path rest ih =>
      intro ix patience
      rw [scanWaveBy, scanWave]
      simp only [ih]

theorem scanWavesBy_scanFile (fs : FileSystem) (s : Settings) (limit : Nat) :
    ∀ (queued : PathSet) (ix : Index) (patience : Patience) (wave : List Text),
      scanWavesBy scanFile fs s limit queued ix patience wave
        = scanWaves fs s limit queued ix patience wave := by
  induction limit with
  | zero =>
      intro queued ix patience wave
      rfl
  | succ limit ih =>
      intro queued ix patience wave
      rw [scanWavesBy, scanWaves]
      simp only [scanWaveBy_scanFile, ih]

theorem scanBy_scanFile (ix : Index) (fs : FileSystem) (s : Settings) (patience : Patience)
    (paths : List Text) : scanBy scanFile ix fs s patience paths = ix.scan fs s patience paths := by
  simp only [scanBy, scan, scanWavesBy_scanFile]

end Index

namespace Workspace

/-- Takes the given files through the step. -/
def scanBy (step : FileStep) (w : Workspace) (fs : FileSystem) (patience : Patience)
    (paths : List Text) : Workspace × ScanSummary :=
  let run := w.index.scanBy step fs w.settings patience paths
  ({ w with index := run.index }, run.summary)

/-- Takes every stylesheet below the root, and the files that have a record, through the step. -/
def reindexBy (step : FileStep) (w : Workspace) (fs : FileSystem) (patience : Patience) :
    Workspace × ScanSummary :=
  match discover fs w.root w.settings patience.isOver with
  | .error e => (w, ⟨ScanStats.zero, [.discoveryStarted], some (.discovery e)⟩)
  | .ok files =>
    let (w, summary) := w.scanBy step fs patience (files ++ w.store.documents.map Document.path)
    (w, { summary with
      events := .discoveryStarted :: .discovered files.length :: summary.events })

theorem scanBy_scanFile (w : Workspace) (fs : FileSystem) (patience : Patience)
    (paths : List Text) : w.scanBy Index.scanFile fs patience paths = w.scan fs patience paths := by
  rw [scanBy, scan, Index.scanBy_scanFile]

theorem reindexBy_scanFile (w : Workspace) (fs : FileSystem) (patience : Patience) :
    w.reindexBy Index.scanFile fs patience = w.reindex fs patience := by
  unfold reindexBy reindex
  cases discover fs w.root w.settings patience.isOver with
  | error e => rfl
  | ok files =>
      -- the discovery is reported in front of what the scan reports
      exact congrArg (fun r : Workspace × ScanSummary => (r.1, { r.2 with
        events := .discoveryStarted :: .discovered files.length :: r.2.events }))
        (scanBy_scanFile w fs patience (files ++ w.store.documents.map Document.path))

end Workspace

/-! ## Histories -/

/-- What happens to a workspace and to the files it is read from. -/
inductive Action where
  | writeFile (path content : Text)
  | removeFile (path : Text)
  /-- The files become any others, and what is permitted with them may change. -/
  | changeFiles (top : Directory) (ordered : top.WellFormed)
  | scan (patience : Patience) (paths : List Text)
  | reindex (patience : Patience)
  | setSettings (settings : Settings)

/-- The effect of an action on the files. -/
def Action.onFiles (fs : FileSystem) : Action → FileSystem
  | .writeFile path content => fs.writeFile path content
  | .removeFile path => fs.remove path
  | .changeFiles top _ => { fs with top := top }
  | _ => fs

/-- A workspace together with the files it is read from. -/
structure Session where
  fs : FileSystem
  workspace : Workspace

namespace Session

/-- The effect of an action, and what a scan told its caller. Settings that are not usable are
turned down. -/
def perform (s : Session) (a : Action) : Session × Option ScanSummary :=
  match a with
  | .scan patience paths =>
    let (w, summary) := s.workspace.scan s.fs patience paths
    (⟨s.fs, w⟩, some summary)
  | .reindex patience =>
    let (w, summary) := s.workspace.reindex s.fs patience
    (⟨s.fs, w⟩, some summary)
  | .setSettings settings =>
    match s.workspace.setSettings settings with
    | .ok w => (⟨s.fs, w⟩, none)
    | .error _ => (s, none)
  | a => (⟨a.onFiles s.fs, s.workspace⟩, none)

/-- The effect of an action with the step of the scans left open. -/
def performBy (step : FileStep) (s : Session) (a : Action) : Session × Option ScanSummary :=
  match a with
  | .scan patience paths =>
    let (w, summary) := s.workspace.scanBy step s.fs patience paths
    (⟨s.fs, w⟩, some summary)
  | .reindex patience =>
    let (w, summary) := s.workspace.reindexBy step s.fs patience
    (⟨s.fs, w⟩, some summary)
  | a => s.perform a

theorem performBy_scanFile (s : Session) (a : Action) :
    s.performBy Index.scanFile a = s.perform a := by
  cases a with
  | scan patience paths =>
      simp only [performBy, perform, Workspace.scanBy_scanFile]
  | reindex patience =>
      simp only [performBy, perform, Workspace.reindexBy_scanFile]
  | _ => rfl

end Session

/-- What a caller learns from a scan, the difference between scanned and unchanged files aside. -/
structure ScanOutcome where
  failure : Option ScanFailure
  removed : Nat
  failed : Nat
  /-- The number of files that were scanned or found unchanged. -/
  upToDate : Nat

/-- The outcome of a scan. -/
def ScanSummary.outcome (s : ScanSummary) : ScanOutcome :=
  ⟨s.failure, s.stats.removed, s.stats.failed, s.stats.scanned + s.stats.unchanged⟩

/-- What can be seen after an action: the records, the import graph, and the outcome if the action
was a scan. -/
structure View where
  store : Store
  graph : ImportGraph
  outcome : Option ScanOutcome

namespace Session

/-- What can be seen of a session after an action. -/
def view (s : Session) (summary : Option ScanSummary) : View :=
  ⟨s.workspace.index.store, s.workspace.index.graph, summary.map ScanSummary.outcome⟩

/-- What can be seen after each of a row of actions, each given by its effect. -/
def views (s : Session) : List (Session → Session × Option ScanSummary) → List View
  | [] => []
  | act :: rest => (act s).1.view (act s).2 :: (act s).1.views rest

theorem views_cons (s : Session) (act : Session → Session × Option ScanSummary)
    (rest : List (Session → Session × Option ScanSummary)) :
    s.views (act :: rest) = (act s).1.view (act s).2 :: (act s).1.views rest := rfl

end Session

/-! ## Contents -/

/-- What can be read of a file. -/
def FileContent.contents : FileContent → List Text
  | .readable content => [content]
  | .unreadable _ _ => []

/-- The contents of the files in a directory and below that can be read. -/
def Directory.contents : Directory → List Text
  | .empty => []
  | .file _ content rest => content.contents ++ rest.contents
  | .folder _ _ inside rest => inside.contents ++ rest.contents

/-- The content of a file, or the contents of the files in a directory. -/
def FileNode.contents : FileNode → List Text
  | .file content => content.contents
  | .folder _ inside => inside.contents

/-- The contents of the files of a file system that can be read. -/
def FileSystem.contents (fs : FileSystem) : List Text := fs.top.contents

/-- What can be read at any time of a history. -/
def contentsDuring (fs : FileSystem) : List Action → List Text
  | [] => fs.contents
  | a :: rest => fs.contents ++ contentsDuring (a.onFiles fs) rest

theorem Directory.contents_get? {name : Text} {node : FileNode} {d : Directory}
    (h : d.get? name = some node) : node.contents ⊆ d.contents := by
  induction d with
  | empty => cases h
  | file n content rest ih =>
      rw [get?] at h
      split_ifs at h
      · cases h
        exact List.subset_append_left _ _
      · exact fun c hc => List.mem_append_right _ (ih h hc)
  | folder n access inside rest _ ih =>
      rw [get?] at h
      split_ifs at h
      · cases h
        exact List.subset_append_left _ _
      · exact fun c hc => List.mem_append_right _ (ih h hc)

/-- What is read is the content of a file. -/
theorem FileSystem.mem_contents_of_read {fs : FileSystem} {path content : Text}
    (h : fs.read path = .ok content) : content ∈ fs.contents := by
  unfold read at h
  split at h
  · cases h
  · cases h
  · next found hfind =>
    have hall : (FileNode.file found).contents ⊆ fs.contents := by
      refine find_induction (P := fun node => node.contents ⊆ fs.contents) ?_ (fun c hc => hc) hfind
      intro access d name node hd hnode
      exact List.Subset.trans (Directory.contents_get? hnode) hd
    cases found with
    | unreadable regular fault => cases h
    | readable t =>
        cases h
        exact hall List.mem_cons_self

end StyleIndex
