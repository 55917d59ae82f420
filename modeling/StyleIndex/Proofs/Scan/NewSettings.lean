import Mathlib.Tactic
import StyleIndex.Proofs.Scan.Closure
import StyleIndex.Proofs.Scan.Convergence
import StyleIndex.Proofs.Scan.Freshness

set_option autoImplicit false

/-! # New settings and the files that are stored already

After a change of the settings an indexing scans the discovered files again, and with them every
file that has a record. `reindex_setSettings` compares the result with that of a new workspace that
has the new settings from the start. Files that have a record and can still be read keep one,
whatever the settings say. If the new workspace stores them as well, and the imports are decided, the two
workspaces end with the same records: then the old one catches up with the new one
(`Index.catches_empty`, `Catches.store_eq`).

Where a stored file is not discovered any more, its record is kept all the same
(`reindex_setSettings_excluded`).
-/

namespace StyleIndex

/-! ## Lenient scans have no failures -/

namespace Index

variable {fs : FileSystem} {s : Settings}

theorem outcome_scanFile_ne_failed (ix : Index) (fs : FileSystem) (path : Text) (e : ParseError) :
    (ix.scanFile fs false path).2.outcome ≠ .failed e := by
  intro h
  rw [scanFile] at h
  cases hread : fs.read path with
  | error fault =>
      rw [hread] at h
      cases h
  | ok content =>
      rw [hread] at h
      simp only at h
      cases hcurrent : ix.current? path content.digest with
      | some d =>
          rw [hcurrent] at h
          cases h
      | none =>
          -- a lenient extract always succeeds
          rw [hcurrent] at h
          cases h

/-- No file of a lenient scan fails, and a scan that is never given up has all its patience left. -/
theorem lenient_scanWaves (hlenient : s.showErrors = false) (limit : Nat) :
    ∀ (queued : PathSet) (ix : Index) (wave : List Text),
      (scanWaves fs s limit queued ix none wave).patience = none ∧
        ∀ r ∈ (scanWaves fs s limit queued ix none wave).reports, ∀ e, r.outcome ≠ .failed e := by
  have hnothing : ∀ r ∈ ([] : List FileReport), ∀ e, r.outcome ≠ .failed e := by
    intro r hr
    cases hr
  induction limit with
  | zero =>
      intro queued ix wave
      exact ⟨rfl, hnothing⟩
  | succ limit ih =>
      intro queued ix wave
      rw [scanWaves]
      by_cases hover : (wave.isEmpty || Patience.isOver none) = true
      · rw [if_pos hover]
        exact ⟨rfl, hnothing⟩
      · rw [if_neg hover]
        have hpatience := (scanWave_none fs s.showErrors wave ix).2
        have hfirst : ∀ r ∈ (scanWave fs s.showErrors ix none wave).2.2, ∀ e,
            r.outcome ≠ .failed e := by
          intro r hr e
          obtain ⟨before, path, after, -, rfl⟩ := mem_reports_scanWave.mp hr
          rw [hlenient]
          exact outcome_scanFile_ne_failed _ fs path e
        generalize scanWave fs s.showErrors ix none wave = a at hpatience hfirst
        obtain ⟨jx, left, reports⟩ := a
        simp only at hpatience hfirst ⊢
        subst hpatience
        generalize enqueue jx.store.key queued
          (if s.scanImportedFiles then reports.flatMap FileReport.follow else []) = next
        obtain ⟨hleft, hlater⟩ := ih next.1 jx next.2
        refine ⟨hleft, ?_⟩
        intro r hr
        rcases List.mem_append.mp hr with hr | hr
        · exact hfirst r hr
        · exact hlater r hr

/-- **A lenient scan that is not given up has no failure.** -/
theorem failure?_scan (hlenient : s.showErrors = false) (ix : Index) (fs : FileSystem)
    (paths : List Text) : (ix.scan fs s none paths).failure? = none := by
  have hscan : (ix.scan fs s none paths).patience = none ∧
      ∀ r ∈ (ix.scan fs s none paths).reports, ∀ e, r.outcome ≠ .failed e :=
    lenient_scanWaves hlenient _ _ ix _
  have herrors : (ix.scan fs s none paths).errors = [] := by
    rw [ScanRun.errors, List.filterMap_eq_nil_iff]
    intro r hr
    split
    · next e he => exact absurd he (hscan.2 r hr e)
    · rfl
  rw [ScanRun.failure?, herrors, ScanRun.canceled, hscan.1]
  rfl

end Index

/-- A lenient indexing that is not given up fails only if discovery does. -/
theorem Workspace.failure_reindex {w w' : Workspace} {fs : FileSystem} {summary : ScanSummary}
    {files : List Text} (hlenient : w.settings.showErrors = false)
    (hfiles : discover fs w.root w.settings false = .ok files)
    (hrun : w.reindex fs none = (w', summary)) : summary.failure = none := by
  rw [reindex] at hrun
  split at hrun
  · next e herror =>
    have hcontra : discover fs w.root w.settings false = .error e := herror
    rw [hfiles] at hcontra
    cases hcontra
  · obtain ⟨-, rfl⟩ := Prod.mk.inj hrun
    exact Index.failure?_scan hlenient w.index fs _

/-! ## An old workspace beside a new one -/

theorem Index.documents_empty (cwd : Text) : (Index.empty cwd).store.documents = [] := by
  rw [List.eq_nil_iff_forall_not_mem]
  intro d hd
  rw [Store.mem_documents_iff, get?_empty] at hd
  cases hd

/-- New settings change neither the root nor the records; the digests are dropped. -/
theorem Workspace.of_setSettings {w w₁ : Workspace} {s : Settings}
    (h : w.setSettings s = .ok w₁) :
    w₁.root = w.root ∧ w₁.settings = s ∧ w₁.store = w.store ∧ w₁.index.digests = ∅ := by
  unfold setSettings at h
  split at h <;> cases h
  exact ⟨rfl, rfl, rfl, rfl⟩

/-- The clean form of a root has the same files below. -/
theorem discover_absolute {fs : FileSystem} (hcwd : Path.isAbsolute fs.cwd = true) (root : Text)
    (s : Settings) (canceled : Bool) :
    discover fs (Path.absolute fs.cwd root) s canceled = discover fs root s canceled := by
  rw [discover, discover, FileSystem.absolute, FileSystem.absolute, Path.absolute_absolute hcwd]

namespace Index

variable {cwd : Text} {fs : FileSystem} {s : Settings} {jx : Index}
  {given more row row' : List Text}

/-- A scan from nothing leaves no record of a path that cannot be read. -/
theorem CompleteRow.get?_eq_none (h : (Index.empty cwd).CompleteRow fs s given row)
    (hcwd : Path.isAbsolute cwd = true) {p : Text} (hp : fs.isReadable (Path.absolute cwd p) = false) :
    ((Index.empty cwd).scanAll fs false row).store.get? p = none := by
  rw [Option.eq_none_iff_forall_ne_some]
  intro d hd
  obtain ⟨content, hread, -⟩ := h.exists_content hcwd hd
  rw [FileSystem.isReadable_of_read_ok hread] at hp
  cases hp

/-- **An index without digests catches up with a scan from nothing**, if it scans what the other is
given and its own stored files, and those of them that can be read are stored by the other as well. -/
theorem catches_empty (h : (Index.empty cwd).CompleteRow fs s given row)
    (hcwd : Path.isAbsolute cwd = true) (hstore : jx.store.cwd = cwd) (hdigests : jx.digests = ∅)
    (hmore : ∀ p, p ∈ more ↔ p ∈ given ∨ p ∈ jx.store.documents.map Document.path)
    (hkept : ∀ q, (jx.store.get? q).isSome = true → fs.isReadable (Path.absolute cwd q) = true →
      (((Index.empty cwd).scanAll fs false row).store.get? q).isSome = true) :
    Catches fs (Index.empty cwd) jx given more row where
  cwd := hstore
  given := fun p hp => (hmore p).mpr (Or.inl hp)
  stored := by
    intro q hq
    rw [get?_empty] at hq
    cases hq
  rest := by
    intro q
    cases hq : jx.store.get? q with
    | none =>
        right
        rw [get?_empty]
    | some d =>
        left
        refine ⟨d.path, (hmore d.path).mpr (Or.inr (Store.path_mem_documents hq)), ?_⟩
        have hkey := (Store.get?_path hq).1
        rwa [Store.key, Store.key, hstore] at hkey
  refreshed := by
    intro p _
    rw [refreshed?_of_digests_empty hdigests, refreshed?_of_digests_empty rfl]
  scanned := by
    intro p hp hfile
    rcases (hmore p).mp hp with hgiven | hstored
    · exact h.key_mem hgiven
    · obtain ⟨d, hd, rfl⟩ := List.mem_map.mp hstored
      have hsome : (jx.store.get? d.path).isSome = true := by
        rw [Store.mem_documents_iff.mp hd]
        rfl
      obtain ⟨e, he⟩ := Option.isSome_iff_exists.mp (hkept d.path hsome hfile)
      exact ((h.get?_eq_some_iff hcwd).mp he).1
  absent := by
    intro p _ hp
    exact h.get?_eq_none hcwd hp

/-- A file that is given to both scans ends with the same record. -/
theorem CompleteRow.get?_eq_of_given (h : (Index.empty cwd).CompleteRow fs s given row)
    (h' : jx.CompleteRow fs s more row') (hcwd : Path.isAbsolute cwd = true)
    (hstore : jx.store.cwd = cwd) (hdigests : jx.digests = ∅) {p : Text} (hp : p ∈ given)
    (hp' : p ∈ more) :
    (jx.scanAll fs false row').store.get? p
      = ((Index.empty cwd).scanAll fs false row).store.get? p := by
  have hkey : jx.store.key = (Index.empty cwd).store.key := Store.key_congr hstore
  rw [h'.get?_scanAll (by rw [hstore]; exact hcwd), if_pos (h'.key_mem hp'), h.get?_scanAll hcwd,
    if_pos (h.key_mem hp), hkey, refreshed?_of_digests_empty hdigests,
    refreshed?_of_digests_empty rfl]

/-- A file that had a record keeps one if it can be read. -/
theorem CompleteRow.isSome_get?_of_stored (h' : jx.CompleteRow fs s more row')
    (hcwd : Path.isAbsolute jx.store.cwd = true)
    (hmore : ∀ q d, jx.store.get? q = some d → d.path ∈ more) {q : Text}
    (hq : (jx.store.get? q).isSome = true) :
    ((jx.scanAll fs false row').store.get? q).isSome = fs.isReadable (jx.store.key q) := by
  obtain ⟨d, hd⟩ := Option.isSome_iff_exists.mp hq
  have hmem : jx.store.key q ∈ row' := by
    rw [← (Store.get?_path hd).1]
    exact h'.key_mem (hmore q d hd)
  rw [h'.get?_scanAll hcwd, if_pos hmem, isSome_refreshed?]

end Index

/-- **Both indexings as complete rows.** The old workspace with new settings and the new workspace
discover the same files; the new one has nothing else to scan. -/
theorem Workspace.exists_rows_of_setSettings {cwd : Text} {w w₁ w' new new' : Workspace}
    {fs : FileSystem} {s : Settings} {summary summary' : ScanSummary}
    (hcwd : Path.isAbsolute fs.cwd = true) (hfs : fs.cwd = cwd) (hstore : w₁.store.cwd = cwd)
    (hlenient : s.showErrors = false) (hset : w.setSettings s = .ok w₁)
    (hrun : w₁.reindex fs none = (w', summary)) (hok : summary.failure = none)
    (hnew : Workspace.create cwd w.root s = .ok new)
    (hrun' : new.reindex fs none = (new', summary')) :
    ∃ files row row', discover fs w.root s false = .ok files ∧ summary'.failure = none ∧
      (Index.empty cwd).CompleteRow fs s files row ∧
      new'.index = (Index.empty cwd).scanAll fs false row ∧
      w₁.index.CompleteRow fs s (files ++ w₁.store.documents.map Document.path) row' ∧
      w'.index = w₁.index.scanAll fs false row' := by
  obtain ⟨hroot, hsettings, -, -⟩ := of_setSettings hset
  obtain ⟨hroot', hsettings', hempty⟩ := of_create hnew
  obtain ⟨files, row', hdiscover, hrow', hindex'⟩ :=
    exists_completeRow_of_reindex hcwd (hstore.trans hfs.symm) hrun hok
  have hlenient' : new.settings.showErrors = false := by rwa [hsettings']
  have hdiscover' : discover fs new.root new.settings false = .ok files := by
    rw [hroot', hsettings', ← hfs, discover_absolute hcwd, ← hroot, ← hsettings, hdiscover]
  have hok' : summary'.failure = none := failure_reindex hlenient' hdiscover' hrun'
  have hstore' : new.store.cwd = fs.cwd := by
    rw [store, hempty, hfs]
    rfl
  obtain ⟨files', row, hfiles, hrow, hindex⟩ :=
    exists_completeRow_of_reindex hcwd hstore' hrun' hok'
  obtain rfl : files' = files := Except.ok.inj (hfiles.symm.trans hdiscover')
  rw [hsettings', store, hempty, Index.documents_empty, List.map_nil, List.append_nil] at hrow
  rw [hsettings', hlenient, hempty] at hindex
  rw [hsettings] at hrow'
  rw [hsettings, hlenient] at hindex'
  rw [hroot, hsettings] at hdiscover
  exact ⟨files', row, row', hdiscover, hok', hrow, hindex, hrow', hindex'⟩

/-- **What an indexing with new settings stores.** Take any workspace that the operations can
produce, give it new lenient settings, and let an indexing that is not given up report no failure.
Beside it, let a new workspace for the same root have these settings from the start and be indexed
once. Its indexing has no failure either. Both leave the same records for the discovered files. The
old workspace has a record for every file that had one before and can be read. So if the same paths are
stored in both, the new workspace stores those files as well; and if it does, and the imports of
its records are decided on the way, the old workspace ends with the records of the new one. -/
theorem reindex_setSettings {cwd : Text} {w w₁ w' new new' : Workspace} {fs : FileSystem}
    {s : Settings} {summary summary' : ScanSummary} (hcwd : Path.isAbsolute cwd = true)
    (hfs : fs.cwd = cwd) (hw : w.Reachable cwd) (hlenient : s.showErrors = false)
    (hset : w.setSettings s = .ok w₁) (hrun : w₁.reindex fs none = (w', summary))
    (hok : summary.failure = none) (hnew : Workspace.create cwd w.root s = .ok new)
    (hrun' : new.reindex fs none = (new', summary')) :
    summary'.failure = none ∧
      (∃ files, discover fs w.root s false = .ok files ∧
        ∀ p ∈ files, w'.store.get? p = new'.store.get? p) ∧
      (∀ q, (w.store.get? q).isSome = true →
        (w'.store.get? q).isSome = fs.isReadable (Path.absolute cwd q)) ∧
      ((∀ q, (w'.store.get? q).isSome = (new'.store.get? q).isSome) →
        ∀ q, (w.store.get? q).isSome = true → fs.isReadable (Path.absolute cwd q) = true →
          (new'.store.get? q).isSome = true) ∧
      ((s.scanImportedFiles = true → ∀ d ∈ new'.store.documents, ∀ i ∈ d.imports,
          i.followable = true → w.store.Decided new'.store fs i.filepath) →
        (∀ q, (w.store.get? q).isSome = true → fs.isReadable (Path.absolute cwd q) = true →
          (new'.store.get? q).isSome = true) →
        w'.store = new'.store) := by
  have hcwd' : Path.isAbsolute fs.cwd = true := by rwa [hfs]
  obtain ⟨-, -, hrecords, hdigests⟩ := Workspace.of_setSettings hset
  have hstore : w₁.index.store.cwd = cwd := by
    show w₁.store.cwd = cwd
    rw [hrecords]
    exact (hw.normal hcwd).cwd
  obtain ⟨files, row, row', hdiscover, hok', hrow, hindex, hrow', hindex'⟩ :=
    Workspace.exists_rows_of_setSettings hcwd' hfs hstore hlenient hset hrun hok hnew hrun'
  have hkeep : ∀ q, (w.store.get? q).isSome = true →
      (w'.store.get? q).isSome = fs.isReadable (Path.absolute cwd q) := by
    intro q hq
    have hcwd₁ : Path.isAbsolute w₁.index.store.cwd = true := by rwa [hstore]
    have hgiven : ∀ q d, w₁.index.store.get? q = some d →
        d.path ∈ files ++ w₁.store.documents.map Document.path :=
      fun q d hd => List.mem_append_right _ (Store.path_mem_documents hd)
    rw [← hrecords] at hq
    rw [Workspace.store, hindex', hrow'.isSome_get?_of_stored hcwd₁ hgiven hq, Store.key, hstore]
  refine ⟨hok', ⟨files, hdiscover, ?_⟩, hkeep, ?_, ?_⟩
  · intro p hp
    rw [Workspace.store, Workspace.store, hindex', hindex]
    exact hrow.get?_eq_of_given hrow' hcwd hstore hdigests hp (List.mem_append_left _ hp)
  · intro hsame q hq hfile
    rw [← hsame q, hkeep q hq, hfile]
  · intro hdecided hkept
    rw [← hrecords] at hdecided hkept
    rw [Workspace.store, Workspace.store, hindex', hindex]
    rw [Workspace.store, Workspace.store, hindex] at hdecided hkept
    have hcatches := Index.catches_empty hrow hcwd hstore hdigests (fun p => List.mem_append) hkept
    refine hcatches.store_eq hrow hrow' hcwd' hfs.symm hlenient ?_
    -- the imports of the row are those of the records it leaves
    intro hfollow p hp d hd i hi hfollowable
    have hget : ((Index.empty cwd).scanAll fs false row).store.get? p = some d := by
      rw [hrow.get?_of_mem hcwd hp, hd]
    have hlisted : d ∈ ((Index.empty cwd).scanAll fs false row).store.documents :=
      Store.mem_documents_iff.mpr (Store.get?_path hget).2
    exact hdecided hfollow d hlisted i hi hfollowable

/-! ## Settings that look at the root directory only -/

/-- A path has a record if it has the key of a document that is listed. -/
theorem Store.isSome_get?_iff {s : Store} {q : Text} :
    (s.get? q).isSome = true ↔ ∃ p ∈ s.documents.map Document.path, s.key p = s.key q := by
  constructor
  · intro hq
    obtain ⟨d, hd⟩ := Option.isSome_iff_exists.mp hq
    exact ⟨d.path, path_mem_documents hd, (get?_path hd).1⟩
  · rintro ⟨p, hp, hkey⟩
    obtain ⟨d, hd, rfl⟩ := List.mem_map.mp hp
    rw [← get?_congr hkey, mem_documents_iff.mp hd]
    rfl

/-- Settings under which no directory below the root is entered. -/
def shallowSettings : Settings :=
  { Settings.default with scannerExclude := [], scannerDepth := 0 }

/-- A new workspace with the shallow settings. -/
def shallowWorkspace : Workspace :=
  ⟨text "/", shallowSettings, Index.empty (text "/"), false, false⟩

namespace Workspace

/-- The paths of all records. -/
def storedPaths (w : Workspace) : List Text := w.store.documents.map Document.path

/-- The workspace with the shallow settings. -/
def shallowed (w : Workspace) : Workspace :=
  { w with settings := shallowSettings, index := { w.index with digests := ∅ } }

theorem setSettings_shallowSettings (w : Workspace) :
    w.setSettings shallowSettings = .ok w.shallowed := by
  have hfaults : shallowSettings.faults = [] := by decide +kernel
  rw [setSettings, hfaults]
  rfl

theorem root_reindex (w : Workspace) (fs : FileSystem) (patience : Patience) :
    (w.reindex fs patience).1.root = w.root := by
  rw [reindex]
  split <;> rfl

end Workspace

/-- The new workspace is one for the root of an indexed workspace. -/
theorem create_shallowWorkspace (fs : FileSystem) :
    Workspace.create (text "/") (emptyWorkspace.reindex fs none).1.root shallowSettings
      = .ok shallowWorkspace := by
  rw [Workspace.root_reindex]
  rfl

/-- What an indexing and then another with the shallow settings show: the paths stored after the
first, whether the second is clean, the paths stored after it, and those stored by a new
workspace. -/
def shallowView (fs : FileSystem) : List Text × Bool × List Text × List Text :=
  let first := (emptyWorkspace.reindex fs none).1
  let second := first.shallowed.reindex fs none
  (first.storedPaths, second.2.failure.isNone, second.1.storedPaths,
    (shallowWorkspace.reindex fs none).1.storedPaths)

/-- What a view says about the runs. -/
theorem exists_of_shallowView {fs : FileSystem} {before after new : List Text}
    (h : shallowView fs = (before, true, after, new)) :
    ∃ (w w' new' : Workspace) (summary summary' : ScanSummary), w.Reachable (text "/") ∧
      w.setSettings shallowSettings = .ok w.shallowed ∧
      w.shallowed.reindex fs none = (w', summary) ∧ summary.failure = none ∧
      Workspace.create (text "/") w.root shallowSettings = .ok shallowWorkspace ∧
      shallowWorkspace.reindex fs none = (new', summary') ∧
      w.storedPaths = before ∧ w'.storedPaths = after ∧ new'.storedPaths = new := by
  simp only [shallowView, Prod.mk.injEq, Option.isNone_iff_eq_none] at h
  obtain ⟨hbefore, hok, hafter, hnew⟩ := h
  refine ⟨_, _, _, _, _, reachable_emptyWorkspace.reindex fs none,
    Workspace.setSettings_shallowSettings _, Prod.mk.eta.symm, hok, create_shallowWorkspace fs,
    Prod.mk.eta.symm, hbefore, hafter, hnew⟩

/-- A file in the root directory and one in a directory below. -/
def nestedFiles : FileSystem where
  top := .file (text "a.scss") (.readable [])
    (.folder (text "sub") .full (.file (text "b.scss") (.readable []) .empty) .empty)
  cwd := text "/"

theorem shallowView_partialFiles :
    shallowView partialFiles
      = ([text "/_b.scss", text "/a.scss"], true, [text "/_b.scss", text "/a.scss"],
          [text "/_b.scss", text "/a.scss"]) := by
  cbv

theorem shallowView_nestedFiles :
    shallowView nestedFiles
      = ([text "/a.scss", text "/sub/b.scss"], true, [text "/a.scss", text "/sub/b.scss"],
          [text "/a.scss"]) := by
  cbv

/-- With all files in the root directory the settings make no difference. -/
theorem reindex_setSettings_partialFiles :
    ∃ (w w₁ w' new new' : Workspace) (summary summary' : ScanSummary), w.Reachable (text "/") ∧
      partialFiles.cwd = text "/" ∧ shallowSettings.showErrors = false ∧
      w.setSettings shallowSettings = .ok w₁ ∧
      w₁.reindex partialFiles none = (w', summary) ∧ summary.failure = none ∧
      Workspace.create (text "/") w.root shallowSettings = .ok new ∧
      new.reindex partialFiles none = (new', summary') ∧
      w.storedPaths = [text "/_b.scss", text "/a.scss"] ∧ w'.store = new'.store := by
  obtain ⟨w, w', new', summary, summary', hw, hset, hrun, hok, hcreate, hrun', hbefore, -, hnew⟩ :=
    exists_of_shallowView shallowView_partialFiles
  have hcwd : new'.store.cwd = text "/" := by
    have hreachable := (Workspace.Reachable.create hcreate).reindex partialFiles none
    rw [hrun'] at hreachable
    exact (hreachable.normal (by rfl)).cwd
  -- the new workspace stores the paths that were stored before
  have hsame : ∀ q, (w.store.get? q).isSome = (new'.store.get? q).isSome := by
    intro q
    have hkey : w.store.key = new'.store.key :=
      Store.key_congr ((hw.normal (by rfl)).cwd.trans hcwd.symm)
    have hpaths : w.store.documents.map Document.path = new'.store.documents.map Document.path :=
      hbefore.trans hnew.symm
    rw [Bool.eq_iff_iff, Store.isSome_get?_iff, Store.isSome_get?_iff, hkey, hpaths]
  refine ⟨w, w.shallowed, w', shallowWorkspace, new', summary, summary', hw, rfl, rfl, hset, hrun,
    hok, hcreate, hrun', hbefore, ?_⟩
  obtain ⟨-, -, -, -, hstore⟩ :=
    reindex_setSettings (by rfl) rfl hw rfl hset hrun hok hcreate hrun'
  refine hstore ?_ ?_
  · intro _ d _ i _ _
    exact Or.inl fun c _ => hsame c
  · intro q hq _
    rwa [← hsame q]

/-- **New settings do not drop records.** The file below the root directory is not discovered with
the new settings, and a new workspace does not store it. In the workspace that was indexed before
it has a record, and so it is scanned again and keeps it. -/
theorem reindex_setSettings_excluded :
    ∃ (w w₁ w' new new' : Workspace) (summary summary' : ScanSummary), w.Reachable (text "/") ∧
      nestedFiles.cwd = text "/" ∧ shallowSettings.showErrors = false ∧
      w.setSettings shallowSettings = .ok w₁ ∧
      w₁.reindex nestedFiles none = (w', summary) ∧ summary.failure = none ∧
      Workspace.create (text "/") w.root shallowSettings = .ok new ∧
      new.reindex nestedFiles none = (new', summary') ∧
      text "/sub/b.scss" ∈ w'.storedPaths ∧ text "/sub/b.scss" ∉ new'.storedPaths := by
  obtain ⟨w, w', new', summary, summary', hw, hset, hrun, hok, hcreate, hrun', -, hafter, hnew⟩ :=
    exists_of_shallowView shallowView_nestedFiles
  refine ⟨w, w.shallowed, w', shallowWorkspace, new', summary, summary', hw, rfl, rfl, hset, hrun,
    hok, hcreate, hrun', ?_, ?_⟩
  · rw [hafter]
    decide +kernel
  · rw [hnew]
    decide +kernel

end StyleIndex
