import Mathlib.Tactic
import StyleIndex.Proofs.Scan.History

set_option autoImplicit false

/-! # The digests of a scan are a cache

A scan takes a file for unchanged when the digest of its content is the one stored with its record.
`refreshFile` is the step without this shortcut: it reads the record off the content every time.
Over any history of file changes, scans and changes of the settings, both ways leave the same
records and the same import graph, and tell the caller the same failures and counts
(`views_perform_eq_views_refreshing`), as long as no two contents of the history share a digest.

The digests may get lost at any time. `scanFileRecalling` asks for a digest only where it is told
to, so a history in which each call has its own `recalls` is a history with a cache that answers
now and then; the plain `scanFile` is the one that always answers.

What carries the proof is `DigestsFaithful`: a digest that stands beside a record is that of a
content of which the record is the extract in the present mode. A change of the mode drops all
digests.
-/

namespace StyleIndex

/-! ## Scanned and unchanged files are not told apart -/

/-- The outcome with an unchanged file counted as scanned. -/
def FileOutcome.forgetDigest : FileOutcome → FileOutcome
  | .unchanged => .scanned
  | outcome => outcome

/-- The report with an unchanged file counted as scanned. -/
def FileReport.forgetDigest (r : FileReport) : FileReport :=
  { r with outcome := r.outcome.forgetDigest }

/-- The wave with unchanged files counted as scanned. -/
def ScanWave.forgetDigests (w : ScanWave) : ScanWave :=
  { w with reports := w.reports.map FileReport.forgetDigest }

/-- Which files are followed does not depend on the outcome. -/
theorem flatMap_follow_forgetDigest (reports : List FileReport) :
    (reports.map FileReport.forgetDigest).flatMap FileReport.follow
      = reports.flatMap FileReport.follow := by
  rw [List.flatMap_map]
  rfl

/-- The counts with the unchanged files counted as scanned. -/
def ScanStats.forgetDigests (s : ScanStats) : ScanStats :=
  ⟨s.scanned + s.unchanged, 0, s.removed, s.failed⟩

theorem ScanStats.forgetDigests_add (s : ScanStats) (outcome : FileOutcome) :
    (s.add outcome).forgetDigests = s.forgetDigests.add outcome.forgetDigest := by
  cases outcome with
  | scanned => simp only [add, forgetDigests, FileOutcome.forgetDigest, Nat.add_right_comm]
  | unchanged => simp only [add, forgetDigests, FileOutcome.forgetDigest, Nat.add_assoc]
  | removed => rfl
  | failed e => rfl

theorem ScanStats.forgetDigests_foldl (outcomes : List FileOutcome) :
    ∀ s : ScanStats, (outcomes.foldl add s).forgetDigests
      = (outcomes.map FileOutcome.forgetDigest).foldl add s.forgetDigests := by
  induction outcomes with
  | nil =>
      intro s
      rfl
  | cons outcome outcomes ih =>
      intro s
      rw [List.foldl_cons, ih, List.map_cons, List.foldl_cons, forgetDigests_add]

namespace ScanRun

/-- The run with unchanged files counted as scanned. -/
def forgetDigests (r : ScanRun) : ScanRun :=
  { r with waves := r.waves.map ScanWave.forgetDigests }

theorem reports_forgetDigests (r : ScanRun) :
    r.forgetDigests.reports = r.reports.map FileReport.forgetDigest := by
  simp only [reports, forgetDigests, List.flatMap_map, List.map_flatMap]
  rfl

theorem errors_forgetDigests (r : ScanRun) : r.forgetDigests.errors = r.errors := by
  rw [errors, errors, reports_forgetDigests, List.filterMap_map]
  congr 1
  funext report
  rcases report with ⟨path, outcome, follow⟩
  cases outcome <;> rfl

theorem stats_forgetDigests (r : ScanRun) : r.forgetDigests.stats = r.stats.forgetDigests := by
  rw [stats, stats, ScanStats.forgetDigests_foldl, reports_forgetDigests, List.map_map,
    List.map_map]
  rfl

/-- The outcome of a run does not tell unchanged files from scanned ones. -/
theorem outcome_forgetDigests (r : ScanRun) :
    r.forgetDigests.summary.outcome = r.summary.outcome := by
  have hfailure : r.forgetDigests.failure? = r.failure? := by
    rw [failure?, failure?, errors_forgetDigests]
    rfl
  simp only [summary, ScanSummary.outcome, hfailure, stats_forgetDigests, ScanStats.forgetDigests,
    Nat.add_zero]

end ScanRun

/-! ## Faithful digests -/

namespace Index

/-- The digests agree with the records: what is extracted, in the given mode, from a content with
the digest of a record is the record. -/
structure DigestsFaithful (contents : List Text) (strict : Bool) (ix : Index) : Prop where
  cwd : Path.isAbsolute ix.store.cwd = true
  normal : ∀ path digest, ix.digests[path]? = some digest → ix.store.key path = path
  extracted : ∀ path digest d, ix.digests[path]? = some digest → ix.store.get? path = some d →
    ∃ content ∈ contents, content.digest = digest ∧ extract path content none strict = .ok d

/-- Without digests there is nothing to agree with. -/
theorem digestsFaithful_empty (contents : List Text) (strict : Bool) {ix : Index}
    (hcwd : Path.isAbsolute ix.store.cwd = true) (hempty : ix.digests = ∅) :
    DigestsFaithful contents strict ix := by
  refine ⟨hcwd, ?_, ?_⟩
  · intro path digest h
    simp [hempty] at h
  · intro path digest d h
    simp [hempty] at h

variable {contents : List Text} {strict : Bool} {ix : Index}

theorem DigestsFaithful.forget (h : ix.DigestsFaithful contents strict) (p : Text) :
    (ix.forget p).DigestsFaithful contents strict := by
  refine ⟨h.cwd, ?_, ?_⟩
  · intro path digest hdigest
    simp only [Index.forget, Std.ExtTreeMap.getElem?_erase] at hdigest
    split_ifs at hdigest
    exact h.normal path digest hdigest
  · intro path digest d hdigest hd
    simp only [Index.forget, Std.ExtTreeMap.getElem?_erase] at hdigest
    split_ifs at hdigest
    simp only [Index.forget, Store.get?_erase] at hd
    split_ifs at hd
    exact h.extracted path digest d hdigest hd

/-- A record is stored together with the digest of the content it is extracted from. -/
theorem DigestsFaithful.record (h : ix.DigestsFaithful contents strict) {p content : Text}
    {d : Document} (hp : ix.store.key p = p) (hcontent : content ∈ contents)
    (hd : extract p content none strict = .ok d) :
    (ix.record p d content.digest).DigestsFaithful contents strict := by
  have hpath := path_of_extract hd
  refine ⟨h.cwd, ?_, ?_⟩
  · intro path digest hdigest
    simp only [Index.record, Std.ExtTreeMap.getElem?_insert, Std.LawfulEqCmp.compare_eq_iff_eq]
      at hdigest
    split_ifs at hdigest with heq
    · rw [← heq]
      exact hp
    · exact h.normal path digest hdigest
  · intro path digest e hdigest he
    simp only [Index.record, Std.ExtTreeMap.getElem?_insert, Std.LawfulEqCmp.compare_eq_iff_eq]
      at hdigest
    simp only [Index.record, Store.get?_insert, hpath] at he
    split_ifs at hdigest with heq
    · subst heq
      rw [if_pos rfl] at he
      cases he
      cases hdigest
      exact ⟨content, hcontent, rfl, hd⟩
    · -- another clean path has another key
      rw [hp, h.normal path digest hdigest, if_neg heq] at he
      exact h.extracted path digest e hdigest he

theorem DigestsFaithful.linkImports (h : ix.DigestsFaithful contents strict) (fs : FileSystem)
    (d : Document) : (ix.linkImports fs d).DigestsFaithful contents strict :=
  ⟨h.cwd, h.normal, h.extracted⟩

/-! ## One file -/

/-- Two indexes know the same, their digests aside. -/
structure SameKnowledge (ix ix' : Index) : Prop where
  store : ix.store = ix'.store
  graph : ix.graph = ix'.graph

/-- The step without digests does not depend on them. -/
theorem refreshFile_congr {ix' : Index} (h : SameKnowledge ix ix') (fs : FileSystem)
    (strict : Bool) (path : Text) :
    SameKnowledge (ix.refreshFile fs strict path).1 (ix'.refreshFile fs strict path).1 ∧
      (ix.refreshFile fs strict path).2 = (ix'.refreshFile fs strict path).2 := by
  obtain ⟨store, graph, digests⟩ := ix
  obtain ⟨store', graph', digests'⟩ := ix'
  obtain ⟨hstore, hgraph⟩ := h
  simp only at hstore hgraph
  subst hstore hgraph
  unfold refreshFile
  split
  · exact ⟨⟨rfl, rfl⟩, rfl⟩
  · split
    · exact ⟨⟨rfl, rfl⟩, rfl⟩
    · exact ⟨⟨rfl, rfl⟩, rfl⟩

/-- The contents of which no two share a digest. -/
def DigestsDistinct (contents : List Text) : Prop :=
  ∀ a ∈ contents, ∀ b ∈ contents, a.digest = b.digest → a = b

/-- A file whose digest is the stored one has the stored record as its extract. -/
theorem DigestsFaithful.extract_of_current? (h : ix.DigestsFaithful contents strict)
    (hdistinct : DigestsDistinct contents) {path content : Text} {d : Document}
    (hcontent : content ∈ contents) (hcurrent : ix.current? path content.digest = some d) :
    extract path content none strict = .ok d ∧ ix.store.get? path = some d := by
  obtain ⟨hdigest, hget⟩ := of_current? hcurrent
  obtain ⟨content', hcontent', hsame, hextract⟩ := h.extracted path _ d hdigest hget
  rw [hdistinct content' hcontent' content hcontent hsame] at hextract
  exact ⟨hextract, hget⟩

/-- **The step with digests does what the step without them does**, and keeps the digests
faithful. -/
theorem scanFileRecalling_refreshFile (h : ix.DigestsFaithful contents strict)
    (hdistinct : DigestsDistinct contents) {fs : FileSystem} (hfs : fs.contents ⊆ contents)
    (recalls : Text → Bool) {path : Text} (hpath : ix.store.key path = path) :
    SameKnowledge (scanFileRecalling recalls ix fs strict path).1
        (ix.refreshFile fs strict path).1 ∧
      (scanFileRecalling recalls ix fs strict path).2.forgetDigest
        = (ix.refreshFile fs strict path).2.forgetDigest ∧
      (scanFileRecalling recalls ix fs strict path).1.DigestsFaithful contents strict := by
  have hrefresh : (ix.refreshFile fs strict path).1.DigestsFaithful contents strict := by
    unfold refreshFile
    split
    · exact h.forget path
    · next content hread =>
      split
      · exact h
      · next d hd =>
        exact (h.record hpath (hfs (FileSystem.mem_contents_of_read hread)) hd).linkImports fs d
  unfold scanFileRecalling
  split_ifs
  · unfold scanFile
    cases hread : fs.read path with
    | error e =>
        have heq : ix.refreshFile fs strict path = (ix.forget path, ⟨path, .removed, []⟩) := by
          rw [refreshFile, hread]
        rw [heq] at hrefresh ⊢
        exact ⟨⟨rfl, rfl⟩, rfl, hrefresh⟩
    | ok content =>
        have hcontent := hfs (FileSystem.mem_contents_of_read hread)
        simp only
        cases hcurrent : ix.current? path content.digest with
        | none =>
            rw [refreshFile, hread] at hrefresh ⊢
            exact ⟨⟨rfl, rfl⟩, rfl, hrefresh⟩
        | some d =>
            -- storing the record again would change nothing
            obtain ⟨hextract, hd⟩ := h.extract_of_current? hdistinct hcontent hcurrent
            have hinsert : ix.store.insert d = ix.store :=
              Store.insert_of_get? (by rwa [path_of_extract hextract])
            have heq : ix.refreshFile fs strict path
                = (ix.record path d content.digest).finish fs path .scanned d := by
              rw [refreshFile, hread]
              simp only [hextract]
            rw [heq]
            simp only [finish, linkImports, unscannedImports, record, hinsert]
            exact ⟨⟨rfl, rfl⟩, rfl, h.linkImports fs d⟩
  · exact ⟨⟨rfl, rfl⟩, rfl, hrefresh⟩

/-- The step keeps the directory that relative paths are taken against. -/
theorem key_refreshFile (ix : Index) (fs : FileSystem) (strict : Bool) (path : Text) :
    (ix.refreshFile fs strict path).1.store.key = ix.store.key := by
  unfold refreshFile
  split
  · rfl
  · split <;> rfl

/-! ## One scan -/

/-- The first index has faithful digests and knows what the second knows. -/
structure Agrees (contents : List Text) (strict : Bool) (ix ix' : Index) : Prop extends
    SameKnowledge ix ix' where
  faithful : ix.DigestsFaithful contents strict

/-- One step with digests, beside one without them. -/
theorem Agrees.step {ix' : Index} (h : Agrees contents strict ix ix')
    (hdistinct : DigestsDistinct contents) {fs : FileSystem} (hfs : fs.contents ⊆ contents)
    (recalls : Text → Bool) {path : Text} (hpath : ix.store.key path = path) :
    Agrees contents strict (scanFileRecalling recalls ix fs strict path).1
        (ix'.refreshFile fs strict path).1 ∧
      (scanFileRecalling recalls ix fs strict path).2.forgetDigest
        = (ix'.refreshFile fs strict path).2.forgetDigest ∧
      (scanFileRecalling recalls ix fs strict path).1.store.key = ix.store.key := by
  obtain ⟨hsame, hreport, hfaithful⟩ :=
    scanFileRecalling_refreshFile h.faithful hdistinct hfs recalls hpath
  obtain ⟨hsame', hreport'⟩ := refreshFile_congr h.toSameKnowledge fs strict path
  refine ⟨⟨⟨hsame.store.trans hsame'.store, hsame.graph.trans hsame'.graph⟩, hfaithful⟩, ?_, ?_⟩
  · rw [hreport, hreport']
  · rw [hsame.store, key_refreshFile]

/-- What is left of two waves: the indexes agree, and so do the patience and the reports. -/
structure WavesAgree (contents : List Text) (strict : Bool)
    (a b : Index × Patience × List FileReport) : Prop where
  index : Agrees contents strict a.1 b.1
  patience : a.2.1 = b.2.1
  reports : a.2.2.map FileReport.forgetDigest = b.2.2.map FileReport.forgetDigest

/-- One wave with digests, beside one without them. -/
theorem Agrees.scanWaveBy (hdistinct : DigestsDistinct contents) {fs : FileSystem}
    (hfs : fs.contents ⊆ contents) (recalls : Text → Bool) {wave : List Text} :
    ∀ {ix ix' : Index} (patience : Patience), Agrees contents strict ix ix' →
      (∀ p ∈ wave, ix.store.key p = p) →
      WavesAgree contents strict
        (Index.scanWaveBy (scanFileRecalling recalls) fs strict ix patience wave)
        (Index.scanWaveBy refreshFile fs strict ix' patience wave) := by
  induction wave with
  | nil =>
      intro ix ix' patience h _
      exact ⟨h, rfl, rfl⟩
  | cons path rest ih =>
      intro ix ix' patience h hwave
      rw [Index.scanWaveBy, Index.scanWaveBy]
      split_ifs
      · exact ⟨h, rfl, rfl⟩
      · obtain ⟨hstep, hreport, hkey⟩ :=
          h.step hdistinct hfs recalls (hwave path List.mem_cons_self)
        have hrest : ∀ p ∈ rest,
            (scanFileRecalling recalls ix fs strict path).1.store.key p = p := by
          intro p hp
          rw [hkey]
          exact hwave p (List.mem_cons_of_mem _ hp)
        obtain ⟨hindex, hpatience, hreports⟩ := ih patience.afterFile hstep hrest
        refine ⟨hindex, hpatience, ?_⟩
        simp only [List.map_cons, hreport, hreports]

/-- What is left of two scans: the indexes agree, and so do the patience and the waves. -/
structure RunsAgree (contents : List Text) (strict : Bool) (r r' : ScanRun) : Prop where
  index : Agrees contents strict r.index r'.index
  patience : r.patience = r'.patience
  waves : r.waves.map ScanWave.forgetDigests = r'.waves.map ScanWave.forgetDigests

/-- **Wave after wave with digests, beside the waves without them.** -/
theorem Agrees.scanWavesBy (hdistinct : DigestsDistinct contents) {fs : FileSystem}
    (hfs : fs.contents ⊆ contents) (recalls : Text → Bool) (s : Settings) (limit : Nat) :
    ∀ {ix ix' : Index} (queued : PathSet) (patience : Patience) {wave : List Text},
      Agrees contents s.showErrors ix ix' → (∀ p ∈ wave, ix.store.key p = p) →
      RunsAgree contents s.showErrors
        (Index.scanWavesBy (scanFileRecalling recalls) fs s limit queued ix patience wave)
        (Index.scanWavesBy refreshFile fs s limit queued ix' patience wave) := by
  induction limit with
  | zero =>
      intro ix ix' queued patience wave h _
      exact ⟨h, rfl, rfl⟩
  | succ limit ih =>
      intro ix ix' queued patience wave h hwave
      rw [Index.scanWavesBy, Index.scanWavesBy]
      by_cases hover : (wave.isEmpty || patience.isOver) = true
      · rw [if_pos hover, if_pos hover]
        exact ⟨h, rfl, rfl⟩
      · rw [if_neg hover, if_neg hover]
        have hfirst := h.scanWaveBy hdistinct hfs recalls patience hwave
        generalize Index.scanWaveBy (scanFileRecalling recalls) fs s.showErrors ix patience wave
          = a at hfirst
        generalize Index.scanWaveBy refreshFile fs s.showErrors ix' patience wave = b at hfirst
        obtain ⟨jx, left, reports⟩ := a
        obtain ⟨jx', left', reports'⟩ := b
        obtain ⟨hindex, hpatience, hreports⟩ := hfirst
        simp only at hindex hpatience hreports ⊢
        subst hpatience
        -- both queue the same files behind the wave
        have hfollow : reports.flatMap FileReport.follow = reports'.flatMap FileReport.follow := by
          rw [← flatMap_follow_forgetDigest, hreports, flatMap_follow_forgetDigest]
        rw [hfollow, ← hindex.store]
        generalize hnext : enqueue jx.store.key queued
          (if s.scanImportedFiles then reports'.flatMap FileReport.follow else []) = next
        have hnormal : ∀ p ∈ next.2, jx.store.key p = p := by
          intro p hp
          rw [← hnext] at hp
          exact key_of_mem_enqueue hindex.faithful.cwd hp
        obtain ⟨hindex', hpatience', hwaves⟩ := ih next.1 left hindex hnormal
        refine ⟨hindex', hpatience', ?_⟩
        simp only [List.map_cons, hwaves, ScanWave.forgetDigests, hreports]

/-- The outcome is a matter of the waves and of the patience left. -/
theorem RunsAgree.outcome {r r' : ScanRun} (h : RunsAgree contents strict r r') :
    r.summary.outcome = r'.summary.outcome := by
  rw [← ScanRun.outcome_forgetDigests r, ← ScanRun.outcome_forgetDigests r']
  obtain ⟨jx, left, waves⟩ := r
  obtain ⟨jx', left', waves'⟩ := r'
  obtain ⟨-, hpatience, hwaves⟩ := h
  simp only at hpatience hwaves
  subst hpatience
  simp only [ScanRun.forgetDigests, hwaves]
  rfl

theorem Agrees.scanBy {ix' : Index} (hdistinct : DigestsDistinct contents) {fs : FileSystem}
    (hfs : fs.contents ⊆ contents) (recalls : Text → Bool) (s : Settings) (patience : Patience)
    (paths : List Text) (h : Agrees contents s.showErrors ix ix') :
    RunsAgree contents s.showErrors
      (Index.scanBy (scanFileRecalling recalls) ix fs s patience paths)
      (Index.scanBy refreshFile ix' fs s patience paths) := by
  rw [Index.scanBy, Index.scanBy, ← h.store]
  exact Agrees.scanWavesBy hdistinct hfs recalls s (fs.top.fileCount + 1) _ patience h
    fun p hp => key_of_mem_enqueue h.faithful.cwd hp

end Index

/-! ## Whole histories -/

/-- Two sessions look alike, and the digests of the first are faithful. -/
structure Session.Agrees (contents : List Text) (s s' : Session) : Prop where
  fs : s.fs = s'.fs
  root : s.workspace.root = s'.workspace.root
  settings : s.workspace.settings = s'.workspace.settings
  index : Index.Agrees contents s.workspace.settings.showErrors s.workspace.index
    s'.workspace.index

namespace Session

variable {contents : List Text} {s s' : Session}

/-- A scan of the workspace. -/
theorem Agrees.scanBy (h : Agrees contents s s') (hdistinct : Index.DigestsDistinct contents)
    (hfs : s.fs.contents ⊆ contents) (recalls : Text → Bool) (patience : Patience)
    (paths : List Text) :
    Agrees contents
        ⟨s.fs, (s.workspace.scanBy (Index.scanFileRecalling recalls) s.fs patience paths).1⟩
        ⟨s'.fs, (s'.workspace.scanBy Index.refreshFile s'.fs patience paths).1⟩ ∧
      (s.workspace.scanBy (Index.scanFileRecalling recalls) s.fs patience paths).2.outcome
        = (s'.workspace.scanBy Index.refreshFile s'.fs patience paths).2.outcome := by
  have hrun := Index.Agrees.scanBy hdistinct hfs recalls s.workspace.settings patience paths
    h.index
  rw [Workspace.scanBy, Workspace.scanBy, ← h.fs, ← h.settings]
  exact ⟨⟨rfl, h.root, rfl, hrun.index⟩, hrun.outcome⟩

/-- An indexing of the workspace. -/
theorem Agrees.reindexBy (h : Agrees contents s s') (hdistinct : Index.DigestsDistinct contents)
    (hfs : s.fs.contents ⊆ contents) (recalls : Text → Bool) (patience : Patience) :
    Agrees contents
        ⟨s.fs, (s.workspace.reindexBy (Index.scanFileRecalling recalls) s.fs patience).1⟩
        ⟨s'.fs, (s'.workspace.reindexBy Index.refreshFile s'.fs patience).1⟩ ∧
      (s.workspace.reindexBy (Index.scanFileRecalling recalls) s.fs patience).2.outcome
        = (s'.workspace.reindexBy Index.refreshFile s'.fs patience).2.outcome := by
  rw [Workspace.reindexBy, Workspace.reindexBy, ← h.fs, ← h.root, ← h.settings]
  cases discover s.fs s.workspace.root s.workspace.settings patience.isOver with
  | error e => exact ⟨⟨rfl, h.root, h.settings, h.index⟩, rfl⟩
  | ok files =>
      -- the files that have a record are the same
      have hstore : s'.workspace.store = s.workspace.store := h.index.store.symm
      have hscan := h.scanBy hdistinct hfs recalls patience
        (files ++ s.workspace.store.documents.map Document.path)
      rw [← h.fs] at hscan
      rw [hstore]
      exact hscan

/-- **One action**, with a cache that answers now and then and without a cache. -/
theorem Agrees.performBy (h : Agrees contents s s') (hdistinct : Index.DigestsDistinct contents)
    (hfs : s.fs.contents ⊆ contents) (recalls : Text → Bool) (a : Action) :
    Agrees contents (s.performBy (Index.scanFileRecalling recalls) a).1
        (s'.performBy Index.refreshFile a).1 ∧
      (s.performBy (Index.scanFileRecalling recalls) a).2.map ScanSummary.outcome
        = (s'.performBy Index.refreshFile a).2.map ScanSummary.outcome ∧
      (s.performBy (Index.scanFileRecalling recalls) a).1.fs = a.onFiles s.fs := by
  cases a with
  | writeFile path content =>
      refine ⟨⟨?_, h.root, h.settings, h.index⟩, rfl, rfl⟩
      show s.fs.writeFile path content = s'.fs.writeFile path content
      rw [h.fs]
  | removeFile path =>
      refine ⟨⟨?_, h.root, h.settings, h.index⟩, rfl, rfl⟩
      show s.fs.remove path = s'.fs.remove path
      rw [h.fs]
  | changeFiles top ordered =>
      refine ⟨⟨?_, h.root, h.settings, h.index⟩, rfl, rfl⟩
      show (⟨top, s.fs.cwd⟩ : FileSystem) = ⟨top, s'.fs.cwd⟩
      rw [h.fs]
  | scan patience paths =>
      obtain ⟨hagrees, houtcome⟩ := h.scanBy hdistinct hfs recalls patience paths
      exact ⟨hagrees, congrArg some houtcome, rfl⟩
  | reindex patience =>
      obtain ⟨hagrees, houtcome⟩ := h.reindexBy hdistinct hfs recalls patience
      exact ⟨hagrees, congrArg some houtcome, rfl⟩
  | setSettings settings =>
      simp only [Session.performBy, perform, Workspace.setSettings]
      cases settings.faults with
      | nil =>
          refine ⟨⟨h.fs, h.root, rfl, ⟨⟨h.index.store, h.index.graph⟩, ?_⟩⟩, rfl, rfl⟩
          exact Index.digestsFaithful_empty contents settings.showErrors h.index.faithful.cwd rfl
      | cons fault faults => exact ⟨h, rfl, rfl⟩

theorem Agrees.view_eq (h : Agrees contents s s') {summary summary' : Option ScanSummary}
    (houtcome : summary.map ScanSummary.outcome = summary'.map ScanSummary.outcome) :
    s.view summary = s'.view summary' := by
  rw [view, view, h.index.store, h.index.graph, houtcome]

/-- A row of actions, each with its own losses of the cache. -/
theorem Agrees.views (hdistinct : Index.DigestsDistinct contents)
    (history : List (Action × (Text → Bool))) :
    ∀ {s s' : Session}, Agrees contents s s' →
      contentsDuring s.fs (history.map Prod.fst) ⊆ contents →
      s.views (history.map fun c s => s.performBy (Index.scanFileRecalling c.2) c.1)
        = s'.views (history.map fun c s => s.performBy Index.refreshFile c.1) := by
  induction history with
  | nil =>
      intro s s' _ _
      rw [List.map_nil, List.map_nil, Session.views, Session.views]
  | cons c history ih =>
      intro s s' h hcontents
      rw [List.map_cons, contentsDuring] at hcontents
      obtain ⟨hagrees, houtcome, hfiles⟩ := h.performBy hdistinct
        (fun t ht => hcontents (List.mem_append_left _ ht)) c.2 c.1
      have hrest := ih hagrees
        (by rw [hfiles]; exact fun t ht => hcontents (List.mem_append_right _ ht))
      rw [List.map_cons, List.map_cons, views_cons, views_cons, hrest, hagrees.view_eq houtcome]

end Session

/-- **The cache of digests cannot be seen.** Take any history of file changes, scans, indexings
and changes of the settings that starts with a new workspace. After every action, the records,
the import graph, the failure, and the numbers of removed, failed and up-to-date files are those
of a program that never asks for a digest: for a cache that keeps every digest, which is what the
program's own operations have, and for every cache that answers some questions and not others.
A call asks for the digest of a path at most once, so it is enough to say for each call which
paths are answered. No two contents of the history may share a digest. -/
theorem views_perform_eq_views_refreshing (fs : FileSystem) {cwd root : Text}
    {settings : Settings} {w : Workspace} (history : List (Action × (Text → Bool)))
    (hw : Workspace.create cwd root settings = .ok w) (hcwd : Path.isAbsolute cwd = true)
    (hdistinct : Index.DigestsDistinct (contentsDuring fs (history.map Prod.fst))) :
    Session.views ⟨fs, w⟩ (history.map fun c s => s.perform c.1)
        = Session.views ⟨fs, w⟩ (history.map fun c s => s.performBy Index.refreshFile c.1) ∧
      Session.views ⟨fs, w⟩
          (history.map fun c s => s.performBy (Index.scanFileRecalling c.2) c.1)
        = Session.views ⟨fs, w⟩ (history.map fun c s => s.performBy Index.refreshFile c.1) := by
  have hindex : w.index = Index.empty cwd := by
    unfold Workspace.create at hw
    split at hw <;> cases hw
    rfl
  have hagrees : Session.Agrees (contentsDuring fs (history.map Prod.fst)) ⟨fs, w⟩ ⟨fs, w⟩ := by
    refine ⟨rfl, rfl, rfl, ⟨⟨rfl, rfl⟩, ?_⟩⟩
    show Index.DigestsFaithful _ _ w.index
    rw [hindex]
    exact Index.digestsFaithful_empty _ _ hcwd rfl
  constructor
  · -- the program's own operations are those of a cache that always answers
    have hplain := Session.Agrees.views hdistinct (history.map fun c => (c.1, fun _ => true))
      hagrees (by rw [List.map_map]; exact fun t ht => ht)
    simpa only [List.map_map, Function.comp_def, Index.scanFileRecalling_true,
      Session.performBy_scanFile] using hplain
  · exact Session.Agrees.views hdistinct history hagrees (fun t ht => ht)

/-- Settings under which a file that does not parse is an error. -/
def strictSettings : Settings :=
  { Settings.default with showErrors := true, scannerExclude := [] }

/-- A file is scanned, broken while it is scanned strictly, and mended; its digest is lost once in
between. -/
def mendedHistory : List (Action × (Text → Bool)) :=
  [(.writeFile (text "/a.scss") (text "$x: 1;"), fun _ => true),
    (.scan none [text "/a.scss"], fun _ => true),
    (.setSettings strictSettings, fun _ => true),
    (.writeFile (text "/a.scss") (text "a \x7b"), fun _ => true),
    (.reindex none, fun _ => true),
    (.writeFile (text "/a.scss") (text "$x: 1;"), fun _ => true),
    (.scan none [text "/a.scss"], fun _ => false),
    (.reindex none, fun _ => true),
    (.removeFile (text "/a.scss"), fun _ => true),
    (.reindex none, fun _ => true)]

theorem views_perform_eq_views_refreshing_mended :
    Workspace.create (text "/") (text "/") { Settings.default with scannerExclude := [] }
        = .ok emptyWorkspace ∧
      Index.DigestsDistinct (contentsDuring ⟨.empty, text "/"⟩ (mendedHistory.map Prod.fst)) ∧
      Session.views ⟨⟨.empty, text "/"⟩, emptyWorkspace⟩
          (mendedHistory.map fun c s => s.perform c.1)
        = Session.views ⟨⟨.empty, text "/"⟩, emptyWorkspace⟩
            (mendedHistory.map fun c s => s.performBy Index.refreshFile c.1) ∧
      Session.views ⟨⟨.empty, text "/"⟩, emptyWorkspace⟩
          (mendedHistory.map fun c s => s.performBy (Index.scanFileRecalling c.2) c.1)
        = Session.views ⟨⟨.empty, text "/"⟩, emptyWorkspace⟩
            (mendedHistory.map fun c s => s.performBy Index.refreshFile c.1) := by
  have hdistinct : Index.DigestsDistinct
      (contentsDuring ⟨.empty, text "/"⟩ (mendedHistory.map Prod.fst)) := by
    unfold Index.DigestsDistinct
    decide +kernel
  exact ⟨create_emptyWorkspace, hdistinct, views_perform_eq_views_refreshing ⟨.empty, text "/"⟩
    mendedHistory create_emptyWorkspace (by rfl) hdistinct⟩

end StyleIndex
