import Mathlib.Tactic
import StyleIndex.Proofs.Files.Discovery
import StyleIndex.Proofs.Scan.Cache
import StyleIndex.Proofs.Scan.Record

set_option autoImplicit false

/-! # An indexing leaves no stale record

A workspace has any history behind it: files were written, removed and made unreadable, some were
scanned, strictly or not, and settings were changed. One lenient indexing that reports no failure
brings everything up to date (`reindex_fresh`): each record is the extract of the present content of
its file and has the digest of that content beside it, and each discovered file has a record, unless
it cannot be read. Such a file is found by its name all the same, and its record is dropped without
a failure (`reindex_lockedFiles_unstored`).

An indexing is given the discovered files and those with a record. So whatever is stored in the end
was scanned in its row, and what a scanned file leaves is read off its content, or was read off a
content with the same digest (`CompleteRow.exists_content_of_faithful`). That such a digest can be
trusted is `DigestsFaithful`, which every action keeps (`Session.Sound.perform`), and which does not
mind when digests get lost (`Session.Sound.keepDigests`).
-/

namespace StyleIndex

/-! ## Sessions -/

theorem Action.cwd_onFiles (fs : FileSystem) (a : Action) : (a.onFiles fs).cwd = fs.cwd := by
  cases a with
  | writeFile path content =>
      show (fs.writeFile path content).cwd = fs.cwd
      unfold FileSystem.writeFile FileSystem.put
      split_ifs
      · rfl
      · split <;> rfl
  | removeFile path =>
      show (fs.remove path).cwd = fs.cwd
      unfold FileSystem.remove
      split <;> rfl
  | _ => rfl

theorem Action.wellFormed_onFiles {fs : FileSystem} (hcwd : Path.isAbsolute fs.cwd = true)
    (hfs : fs.top.WellFormed) (a : Action) : (a.onFiles fs).top.WellFormed := by
  cases a with
  | writeFile path content => exact FileSystem.wellFormed_writeFile hcwd hfs path content
  | removeFile path => exact FileSystem.wellFormed_removeFile hcwd hfs path
  | changeFiles top ordered => exact ordered
  | _ => exact hfs

/-- The index with the digests of the paths that `kept` names; the others got lost. -/
def Index.keepDigests (ix : Index) (kept : Text → Bool) : Index :=
  { ix with digests := ix.digests.filter fun path _ => kept path }

theorem Index.DigestsFaithful.keepDigests {contents : List Text} {strict : Bool} {ix : Index}
    (h : ix.DigestsFaithful contents strict) (kept : Text → Bool) :
    (ix.keepDigests kept).DigestsFaithful contents strict := by
  have hsub : ∀ (path : Text) (digest : UInt64),
      (ix.keepDigests kept).digests[path]? = some digest →
      ix.digests[path]? = some digest := by
    intro path digest hdigest
    simp only [Index.keepDigests, Std.ExtTreeMap.getElem?_filter'] at hdigest
    exact (Option.filter_eq_some_iff.mp hdigest).1
  refine ⟨h.cwd, ?_, ?_⟩
  · intro path digest hdigest
    exact h.normal path digest (hsub path digest hdigest)
  · intro path digest d hdigest hd
    exact h.extracted path digest d (hsub path digest hdigest) hd

namespace Session

/-- The session with the digests of the paths that `kept` names. -/
def keepDigests (s : Session) (kept : Text → Bool) : Session :=
  { s with workspace := { s.workspace with index := s.workspace.index.keepDigests kept } }

/-- Where nothing gets lost, nothing changes. -/
theorem keepDigests_true (s : Session) : s.keepDigests (fun _ => true) = s := by
  have hall : (s.workspace.index.digests.filter fun _ _ => true) = s.workspace.index.digests :=
    Std.ExtTreeMap.filter_eq_self_iff.mpr fun _ _ => rfl
  rw [keepDigests, Index.keepDigests, hall]

/-- The session after a row of actions. Before each of them digests may get lost: a call asks for
the digest of a path at most once, so what it does not find can as well be lost before the call. -/
def after (s : Session) (history : List (Action × (Text → Bool))) : Session :=
  history.foldl (fun s c => ((s.keepDigests c.2).perform c.1).1) s

theorem fs_perform (s : Session) (a : Action) : (s.perform a).1.fs = a.onFiles s.fs := by
  cases a with
  | setSettings settings =>
      rw [perform]
      split <;> rfl
  | _ => rfl

variable {cwd : Text} {contents : List Text} {s : Session}

theorem normal_perform (hcwd : Path.isAbsolute cwd = true) (h : s.workspace.Normal cwd)
    (a : Action) : (s.perform a).1.workspace.Normal cwd := by
  cases a with
  | scan patience paths => exact h.scan hcwd s.fs patience paths
  | reindex patience =>
      show (s.workspace.reindex s.fs patience).1.Normal cwd
      rw [Workspace.reindex]
      split
      · exact h
      · exact h.scan hcwd s.fs patience _
  | setSettings settings =>
      rw [perform]
      split
      · next w hset =>
        unfold Workspace.setSettings at hset
        split at hset <;> cases hset
        exact ⟨h.cwd, h.store⟩
      · exact h
  | _ => exact h

/-- What every session of a program that works in `cwd` keeps, if its files never hold anything but
`contents`: records stand under their paths, the files are in order, and the digests can be
trusted. -/
structure Sound (cwd : Text) (contents : List Text) (s : Session) : Prop where
  normal : s.workspace.Normal cwd
  cwd : s.fs.cwd = cwd
  files : s.fs.top.WellFormed
  faithful : s.workspace.index.DigestsFaithful contents s.workspace.settings.showErrors

theorem Sound.keepDigests (h : Sound cwd contents s) (kept : Text → Bool) :
    Sound cwd contents (s.keepDigests kept) :=
  ⟨⟨h.normal.cwd, h.normal.store⟩, h.cwd, h.files, h.faithful.keepDigests kept⟩

/-- **One action keeps a session sound.** -/
theorem Sound.perform (h : Sound cwd contents s) (hcwd : Path.isAbsolute cwd = true)
    (hdistinct : Index.DigestsDistinct contents) (hcontents : s.fs.contents ⊆ contents)
    (a : Action) : Sound cwd contents (s.perform a).1 := by
  have hself : Agrees contents s s := ⟨rfl, rfl, rfl, ⟨⟨rfl, rfl⟩, h.faithful⟩⟩
  -- the plain scans are those with a cache that always answers
  have hagrees := (hself.performBy hdistinct hcontents (fun _ => true) a).1
  rw [Index.scanFileRecalling_true, performBy_scanFile] at hagrees
  refine ⟨normal_perform hcwd h.normal a, ?_, ?_, hagrees.index.faithful⟩
  · rw [fs_perform, a.cwd_onFiles, h.cwd]
  · rw [fs_perform]
    exact a.wellFormed_onFiles (by rw [h.cwd]; exact hcwd) h.files

/-- **A row of actions keeps a session sound.** -/
theorem Sound.after (hcwd : Path.isAbsolute cwd = true) (hdistinct : Index.DigestsDistinct contents)
    {history : List (Action × (Text → Bool))} : ∀ {s : Session}, Sound cwd contents s →
      contentsDuring s.fs (history.map Prod.fst) ⊆ contents →
      Sound cwd contents (s.after history) ∧ (s.after history).fs.contents ⊆ contents := by
  induction history with
  | nil =>
      intro s h hcontents
      exact ⟨h, hcontents⟩
  | cons c history ih =>
      intro s h hcontents
      rw [List.map_cons, contentsDuring] at hcontents
      have hnow : s.fs.contents ⊆ contents := fun t ht => hcontents (List.mem_append_left _ ht)
      refine ih ((h.keepDigests c.2).perform hcwd hdistinct hnow c.1) ?_
      rw [fs_perform]
      exact fun t ht => hcontents (List.mem_append_right _ ht)

end Session

theorem Workspace.of_create {cwd root : Text} {settings : Settings} {w : Workspace}
    (h : Workspace.create cwd root settings = .ok w) :
    w.root = Path.absolute cwd root ∧ w.settings = settings ∧ w.index = Index.empty cwd := by
  unfold Workspace.create at h
  split at h <;> cases h
  exact ⟨rfl, rfl, rfl⟩

/-- A new workspace is sound. -/
theorem Session.sound_create {cwd root : Text} {settings : Settings} {w : Workspace}
    {fs : FileSystem} (contents : List Text) (hcwd : Path.isAbsolute cwd = true)
    (hfs : fs.cwd = cwd) (hfiles : fs.top.WellFormed)
    (hw : Workspace.create cwd root settings = .ok w) : Sound cwd contents ⟨fs, w⟩ := by
  refine ⟨(Workspace.Reachable.create hw).normal hcwd, hfs, hfiles, ?_⟩
  show Index.DigestsFaithful contents w.settings.showErrors w.index
  rw [(Workspace.of_create hw).2.2]
  exact Index.digestsFaithful_empty contents _ hcwd rfl

/-! ## Indexings -/

/-- With faithful digests, a step leaves the extract of the present content. -/
theorem Index.DigestsFaithful.refreshed?_eq {contents : List Text} {ix : Index} {fs : FileSystem}
    (h : ix.DigestsFaithful contents false) (hdistinct : DigestsDistinct contents)
    (hcontents : fs.contents ⊆ contents) (path : Text) :
    ix.refreshed? fs path
      = (fs.read path).toOption.map fun content => extractLenient path content none := by
  rw [Index.refreshed?]
  cases hread : fs.read path with
  | error fault => rfl
  | ok content =>
      simp only
      cases hcurrent : ix.current? path content.digest with
      | none => rfl
      | some d =>
          have hcontent := hcontents (FileSystem.mem_contents_of_read hread)
          have hextract := (h.extract_of_current? hdistinct hcontent hcurrent).1
          have hd : extractLenient path content none = d := Except.ok.inj hextract
          rw [← hd]
          rfl

/-- **A scan that is given all stored files leaves fresh records.** -/
theorem Index.CompleteRow.exists_content_of_faithful {contents : List Text} {ix : Index}
    {fs : FileSystem} {s : Settings} {paths row : List Text}
    (h : ix.CompleteRow fs s paths row) (hfaithful : ix.DigestsFaithful contents false)
    (hdistinct : DigestsDistinct contents) (hcontents : fs.contents ⊆ contents)
    (hgiven : ∀ q d, ix.store.get? q = some d → d.path ∈ paths) {q : Text} {d : Document}
    (hd : (ix.scanAll fs false row).store.get? q = some d) :
    ∃ content, fs.read (ix.store.key q) = .ok content ∧
      d = extractLenient (ix.store.key q) content none ∧
      (ix.scanAll fs false row).digests[ix.store.key q]? = some content.digest := by
  have hget := h.get?_scanAll hfaithful.cwd q
  rw [hd] at hget
  have hmem : ix.store.key q ∈ row := by
    -- with a record from before, the file was given
    by_contra hnot
    rw [if_neg hnot] at hget
    have hkey : ix.store.key d.path = ix.store.key q := (Store.get?_path hget.symm).1
    exact hnot (hkey ▸ h.key_mem (hgiven q d hget.symm))
  rw [if_pos hmem, hfaithful.refreshed?_eq hdistinct hcontents] at hget
  cases hread : fs.read (ix.store.key q) with
  | error fault =>
      rw [hread] at hget
      cases hget
  | ok content =>
      rw [hread] at hget
      refine ⟨content, rfl, Option.some.inj hget, ?_⟩
      rw [Index.digests_scanAll, if_pos hmem, hread]
      rfl

/-- **An indexing without a failure is a complete scan** of the discovered files and of those with
a record. -/
theorem Workspace.exists_completeRow_of_reindex {w w' : Workspace} {fs : FileSystem}
    {summary : ScanSummary} (hcwd : Path.isAbsolute fs.cwd = true)
    (hstore : w.store.cwd = fs.cwd) (hrun : w.reindex fs none = (w', summary))
    (hok : summary.failure = none) :
    ∃ files row, discover fs w.root w.settings false = .ok files ∧
      w.index.CompleteRow fs w.settings (files ++ w.store.documents.map Document.path) row ∧
      w'.index = w.index.scanAll fs w.settings.showErrors row := by
  rw [reindex] at hrun
  split at hrun
  · obtain ⟨-, rfl⟩ := Prod.mk.inj hrun
    cases hok
  · next files hfiles =>
    obtain ⟨rfl, -⟩ := Prod.mk.inj hrun
    have hscans := Index.scans_scan w.settings hcwd hstore
      (files ++ w.store.documents.map Document.path)
    exact ⟨files, _, hfiles, hscans.complete.1, hscans.complete.2⟩

/-- **An indexing leaves no stale record.** Take any files in order and any history of file
changes, scans, indexings and changes of the settings that starts with a new workspace; digests may
get lost at any time. Assume that no two contents of the history share a digest. After a lenient
indexing that is not given up and reports no failure, the path of every stored document leads to a
file, the document is the extract of the present content of that file, and the digest of that path
is that of this content. A path that discovery finds below the root has a record exactly if its file
can be read. -/
theorem reindex_fresh {cwd root : Text} {settings : Settings} {w w' : Workspace}
    {fs : FileSystem} {s : Session} {summary : ScanSummary}
    (history : List (Action × (Text → Bool))) (kept : Text → Bool)
    (hcwd : Path.isAbsolute cwd = true) (hfs : fs.cwd = cwd) (hfiles : fs.top.WellFormed)
    (hw : Workspace.create cwd root settings = .ok w)
    (hdistinct : Index.DigestsDistinct (contentsDuring fs (history.map Prod.fst)))
    (hs : (Session.after ⟨fs, w⟩ history).keepDigests kept = s)
    (hlenient : s.workspace.settings.showErrors = false)
    (hrun : s.workspace.reindex s.fs none = (w', summary)) (hok : summary.failure = none) :
    (∀ d ∈ w'.store.documents, ∃ content, s.fs.read d.path = .ok content ∧
        d = extractLenient d.path content none ∧
        w'.index.digests[d.path]? = some content.digest) ∧
      ∃ files, discover s.fs s.workspace.root s.workspace.settings false = .ok files ∧
        ∀ p ∈ files, (w'.store.get? p).isSome = true ↔ ∃ content, s.fs.read p = .ok content := by
  obtain ⟨hafter, hcontents⟩ := Session.Sound.after hcwd hdistinct
    (Session.sound_create (contentsDuring fs (history.map Prod.fst)) hcwd hfs hfiles hw)
    fun t ht => ht
  have hsound := hafter.keepDigests kept
  have hcontents : s.fs.contents ⊆ contentsDuring fs (history.map Prod.fst) := by
    rw [← hs]
    exact hcontents
  rw [hs] at hsound
  have hcwd' : Path.isAbsolute s.fs.cwd = true := by rwa [hsound.cwd]
  have hstore : s.workspace.index.store.cwd = s.fs.cwd := by
    rw [hsound.cwd]
    exact hsound.normal.cwd
  obtain ⟨files, row, hdiscover, hrow, hindex⟩ :=
    Workspace.exists_completeRow_of_reindex hcwd' hstore hrun hok
  have hfaithful := hsound.faithful
  rw [hlenient] at hindex hfaithful
  constructor
  · intro d hd
    have hget : (s.workspace.index.scanAll s.fs false row).store.get? d.path = some d := by
      rw [← hindex]
      exact Store.mem_documents_iff.mp hd
    obtain ⟨content, hread, hextract, hdigest⟩ := hrow.exists_content_of_faithful hfaithful
      hdistinct hcontents
      (fun q e he => List.mem_append_right _ (Store.path_mem_documents he)) hget
    -- the record was extracted under its key, so the key is its path
    have hmade : extract (s.workspace.index.store.key d.path) content none false = .ok d :=
      congrArg Except.ok hextract.symm
    have hkey : d.path = s.workspace.index.store.key d.path := path_of_extract hmade
    rw [← hkey] at hread hextract hdigest
    rw [hindex]
    exact ⟨content, hread, hextract, hdigest⟩
  · refine ⟨files, hdiscover, ?_⟩
    intro p hp
    have hclean := (Discovery.mem_filePaths_of_mem_discover hcwd' hsound.files hdiscover hp).2
    have hkey : s.workspace.index.store.key p = p := by
      rw [Store.key, hstore, hclean]
    have hmem : p ∈ row := by
      have hgiven := hrow.key_mem (List.mem_append_left _ hp)
      rwa [hkey] at hgiven
    show (w'.index.store.get? p).isSome = true ↔ _
    rw [hindex, hrow.get?_of_mem hfaithful.cwd hmem, Index.isSome_refreshed?,
      FileSystem.isReadable_iff]

/-- A file that does not parse beside one that cannot be read. -/
def lockedDirectory : Directory :=
  .file (text "a.scss") (.readable (text "a \x7b"))
    (.file (text "c.scss") (.unreadable true .denied) .empty)

theorem wellFormed_lockedDirectory : lockedDirectory.WellFormed := by
  decide +kernel

/-- Two files are indexed; then one is broken, which a strict indexing turns down, and the other is
removed. The digest of the first gets lost in between. In the end a file stands beside it that
cannot be read. -/
def staleHistory : List (Action × (Text → Bool)) :=
  [(.reindex none, fun _ => true), (.reindex none, fun path => path ≠ text "/a.scss"),
    (.setSettings strictSettings, fun _ => true),
    (.writeFile (text "/a.scss") (text "a \x7b"), fun _ => true), (.reindex none, fun _ => true),
    (.removeFile (text "/_b.scss"), fun _ => true),
    (.changeFiles lockedDirectory wellFormed_lockedDirectory, fun _ => true),
    (.setSettings emptyWorkspace.settings, fun _ => true)]

/-- The session after that history. -/
def staleSession : Session := Session.after ⟨partialFiles, emptyWorkspace⟩ staleHistory

/-- What stands out in the session: the settings are lenient, a removed file still has its record,
an indexing has no failure, and discovery finds both files, of which one can be read. -/
theorem view_staleSession :
    (staleSession.workspace.settings.showErrors,
        (staleSession.workspace.store.get? (text "/_b.scss")).isSome,
        staleSession.fs.isFile (text "/_b.scss"),
        (staleSession.workspace.reindex staleSession.fs none).2.failure.isNone,
        discover staleSession.fs staleSession.workspace.root staleSession.workspace.settings false,
        staleSession.fs.isReadable (text "/a.scss"), staleSession.fs.isReadable (text "/c.scss"))
      = (false, true, false, true, .ok [text "/a.scss", text "/c.scss"], true, false) := by
  cbv

theorem reindex_fresh_staleHistory :
    Workspace.create (text "/") (text "/") { Settings.default with scannerExclude := [] }
        = .ok emptyWorkspace ∧
      partialFiles.top.WellFormed ∧
      Index.DigestsDistinct (contentsDuring partialFiles (staleHistory.map Prod.fst)) ∧
      (staleSession.workspace.store.get? (text "/_b.scss")).isSome = true ∧
      staleSession.fs.isFile (text "/_b.scss") = false ∧
      ∃ w' summary, staleSession.workspace.reindex staleSession.fs none = (w', summary) ∧
        summary.failure = none ∧
        (∀ d ∈ w'.store.documents, ∃ content, staleSession.fs.read d.path = .ok content ∧
          d = extractLenient d.path content none ∧
          w'.index.digests[d.path]? = some content.digest) ∧
        discover staleSession.fs staleSession.workspace.root staleSession.workspace.settings false
          = .ok [text "/a.scss", text "/c.scss"] ∧
        (w'.store.get? (text "/a.scss")).isSome = true ∧
        (w'.store.get? (text "/c.scss")).isSome = false := by
  have hfiles : partialFiles.top.WellFormed := by decide +kernel
  have hdistinct : Index.DigestsDistinct
      (contentsDuring partialFiles (staleHistory.map Prod.fst)) := by
    unfold Index.DigestsDistinct
    decide +kernel
  have hview := view_staleSession
  simp only [Prod.mk.injEq, Option.isNone_iff_eq_none] at hview
  obtain ⟨hlenient, hstored, hremoved, hok, hfound, hreadable, hlocked⟩ := hview
  obtain ⟨hfresh, files, hdiscover, hrecords⟩ := reindex_fresh staleHistory (fun _ => true) (by rfl)
    rfl hfiles create_emptyWorkspace hdistinct staleSession.keepDigests_true hlenient rfl hok
  obtain rfl := Except.ok.inj (hfound.symm.trans hdiscover)
  refine ⟨create_emptyWorkspace, hfiles, hdistinct, hstored, hremoved, _, _, rfl, hok, hfresh,
    hfound, ?_, ?_⟩
  · rw [hrecords (text "/a.scss") List.mem_cons_self, ← FileSystem.isReadable_iff]
    exact hreadable
  · rw [Bool.eq_false_iff, ne_eq,
      hrecords (text "/c.scss") (List.mem_cons_of_mem _ List.mem_cons_self),
      ← FileSystem.isReadable_iff, hlocked]
    exact Bool.false_ne_true

/-- A file system with a file that cannot be read. -/
def lockedFiles : FileSystem := ⟨lockedDirectory, text "/"⟩

/-- **Not every discovered file has a record.** An indexing by a new workspace with lenient settings
reports no failure, and a file that discovery finds has no record, as it cannot be read. -/
theorem reindex_lockedFiles_unstored :
    Workspace.create (text "/") (text "/") { Settings.default with scannerExclude := [] }
        = .ok emptyWorkspace ∧
      emptyWorkspace.settings.showErrors = false ∧
      ∃ w' summary, emptyWorkspace.reindex lockedFiles none = (w', summary) ∧
        summary.failure = none ∧
        discover lockedFiles emptyWorkspace.root emptyWorkspace.settings false
          = .ok [text "/a.scss", text "/c.scss"] ∧
        (w'.store.get? (text "/a.scss")).isSome = true ∧
        (w'.store.get? (text "/c.scss")).isSome = false := by
  have hview : ((emptyWorkspace.reindex lockedFiles none).2.failure.isNone,
      discover lockedFiles emptyWorkspace.root emptyWorkspace.settings false,
      ((emptyWorkspace.reindex lockedFiles none).1.store.get? (text "/a.scss")).isSome,
      ((emptyWorkspace.reindex lockedFiles none).1.store.get? (text "/c.scss")).isSome)
        = (true, .ok [text "/a.scss", text "/c.scss"], true, false) := by
    cbv
  simp only [Prod.mk.injEq, Option.isNone_iff_eq_none] at hview
  obtain ⟨hok, hfound, hstored, hunstored⟩ := hview
  exact ⟨create_emptyWorkspace, rfl, _, _, rfl, hok, hfound, hstored, hunstored⟩

end StyleIndex
