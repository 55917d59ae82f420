import Mathlib
import StyleIndex.Proofs.Files.Following
import StyleIndex.Proofs.Scan.Edges

set_option autoImplicit false

/-! # The schedules of a scan

The files of one wave may be brought up to date in any order: `ScanState.after` is the effect of a
wave whose files are taken in a given order, and a run (`ScanState.Run`) takes wave after wave,
each in an order of its own. `Index.Scans` says that some schedule takes a scan to its end; the
scan of the index is the one that keeps to the order of each wave (`scans_scan`).

A run is described by the *row* of files in the order in which they were brought up to date. A
file is *asked for* by a row if it is one of the given files, or if a step of the row found it to
follow. The row of a finished scan is complete (`Scans.complete`): it holds each file that it asks
for, once, and each file is asked for by those in front of it. All that is said about finished
scans elsewhere follows from this.

No schedule goes on forever (`acc_next`): every wave after the first holds a file that was not
queued before.
-/

namespace StyleIndex

/-! ## The queue -/

section Queue

variable {key : Text → Text} {q : Text} {paths : List Text}

/-- What is added to the queue: the keys of the paths, unless they were queued before. -/
theorem mem_enqueue : ∀ {queued : PathSet},
    q ∈ (enqueue key queued paths).2 ↔ q ∉ queued ∧ ∃ p ∈ paths, key p = q := by
  induction paths with
  | nil =>
      intro queued
      simp [enqueue]
  | cons p rest ih =>
      intro queued
      rw [enqueue]
      split_ifs with hp
      · rw [ih]
        have hp : key p ∈ queued := Std.ExtTreeSet.contains_iff_mem.mp hp
        constructor
        · rintro ⟨hq, r, hr, rfl⟩
          exact ⟨hq, r, List.mem_cons_of_mem _ hr, rfl⟩
        · rintro ⟨hq, r, hr, rfl⟩
          rcases List.mem_cons.mp hr with rfl | hr
          · exact absurd hp hq
          · exact ⟨hq, r, hr, rfl⟩
      · have hp : key p ∉ queued := fun h => hp (Std.ExtTreeSet.contains_iff_mem.mpr h)
        simp only [List.mem_cons, ih, Std.ExtTreeSet.mem_insert, Std.LawfulEqCmp.compare_eq_iff_eq]
        constructor
        · rintro (rfl | ⟨hq, r, hr, rfl⟩)
          · exact ⟨hp, p, Or.inl rfl, rfl⟩
          · exact ⟨fun h => hq (Or.inr h), r, Or.inr hr, rfl⟩
        · rintro ⟨hq, r, rfl | hr, rfl⟩
          · exact Or.inl rfl
          · by_cases hpr : key p = key r
            · exact Or.inl hpr.symm
            · exact Or.inr ⟨by simp [hpr, hq], r, hr, rfl⟩

/-- The queue grows by what is added. -/
theorem mem_enqueue_fst : ∀ {queued : PathSet},
    q ∈ (enqueue key queued paths).1 ↔ q ∈ queued ∨ q ∈ (enqueue key queued paths).2 := by
  induction paths with
  | nil =>
      intro queued
      simp [enqueue]
  | cons p rest ih =>
      intro queued
      rw [enqueue]
      split_ifs
      · exact ih
      · simp only [ih, Std.ExtTreeSet.mem_insert, Std.LawfulEqCmp.compare_eq_iff_eq, List.mem_cons]
        constructor
        · rintro ((rfl | hq) | hq)
          · exact Or.inr (Or.inl rfl)
          · exact Or.inl hq
          · exact Or.inr (Or.inr hq)
        · rintro (hq | rfl | hq)
          · exact Or.inl (Or.inr hq)
          · exact Or.inl (Or.inl rfl)
          · exact Or.inr hq

/-- What is queued afterwards. -/
theorem mem_queued_enqueue {queued : PathSet} :
    q ∈ (enqueue key queued paths).1 ↔ q ∈ queued ∨ ∃ p ∈ paths, key p = q := by
  rw [mem_enqueue_fst, mem_enqueue]
  tauto

/-- Nothing is queued twice. -/
theorem nodup_enqueue : ∀ {queued : PathSet}, (enqueue key queued paths).2.Nodup := by
  induction paths with
  | nil =>
      intro queued
      exact List.nodup_nil
  | cons p rest ih =>
      intro queued
      rw [enqueue]
      split_ifs
      · exact ih
      · refine List.nodup_cons.mpr ⟨?_, ih⟩
        intro hmem
        have hfresh := (mem_enqueue.mp hmem).1
        exact hfresh (by simp)

end Queue

/-! ## Reports -/

namespace Index

/-- The report on a file that is brought up to date after the files `before`. -/
def reportAfter (ix : Index) (fs : FileSystem) (strict : Bool) (before : List Text)
    (path : Text) : FileReport :=
  ((ix.scanAll fs strict before).scanFile fs strict path).2

theorem path_scanFile (ix : Index) (fs : FileSystem) (strict : Bool) (path : Text) :
    (ix.scanFile fs strict path).2.path = path := by
  rw [scanFile]
  split
  · rfl
  · split
    · rfl
    · split <;> rfl

/-- The imported files of a record that have no record yet. -/
theorem mem_unscannedImports {ix : Index} {fs : FileSystem} {d : Document} {f : Text} :
    f ∈ ix.unscannedImports fs d ↔ ∃ i ∈ d.imports, i.followable = true ∧
      ix.store.importedFile fs i.filepath = .onDisk f := by
  have hfollow : ∀ file : ImportedFile, file.toFollow? = some f ↔ file = .onDisk f := by
    intro file
    cases file <;> simp [ImportedFile.toFollow?]
  simp only [unscannedImports, Store.importedFiles, List.filterMap_map, List.mem_filterMap,
    List.mem_filter, Function.comp_apply, hfollow, and_assoc]

/-- A step follows files that some import refers to and that have no record yet. -/
theorem exists_import_of_mem_follow {ix : Index} {fs : FileSystem} {strict : Bool} {path f : Text}
    (h : f ∈ (ix.scanFile fs strict path).2.follow) :
    ∃ target, (ix.scanFile fs strict path).1.store.importedFile fs target = .onDisk f := by
  have hunscanned : ∀ {jx : Index} {d : Document}, f ∈ jx.unscannedImports fs d →
      ∃ target, jx.store.importedFile fs target = .onDisk f := by
    intro jx d hf
    obtain ⟨i, -, -, hi⟩ := mem_unscannedImports.mp hf
    exact ⟨i.filepath, hi⟩
  rw [scanFile] at h ⊢
  split at h
  · cases h
  · split at h
    · exact hunscanned h
    · split at h
      · cases h
      · exact hunscanned h

theorem scanWave_none (fs : FileSystem) (strict : Bool) (order : List Text) (ix : Index) :
    (scanWave fs strict ix none order).1 = ix.scanAll fs strict order ∧
      (scanWave fs strict ix none order).2.1 = none := by
  obtain ⟨scanned, -, hindex, hall⟩ := exists_scanWave_eq_scanAll fs strict order ix none
  obtain ⟨rfl, hpatience⟩ := hall rfl
  exact ⟨hindex, hpatience⟩

theorem map_path_scanWave (fs : FileSystem) (strict : Bool) (order : List Text) :
    ∀ ix : Index, (scanWave fs strict ix none order).2.2.map FileReport.path = order := by
  induction order with
  | nil =>
      intro ix
      rfl
  | cons path rest ih =>
      intro ix
      have hrest := ih (ix.scanFile fs strict path).1
      have hpath := ix.path_scanFile fs strict path
      show (ix.scanFile fs strict path).2.path
        :: (scanWave fs strict (ix.scanFile fs strict path).1 none rest).2.2.map FileReport.path
          = path :: rest
      rw [hpath, hrest]

/-- The reports of a wave are those on its files, each after the files in front of it. -/
theorem mem_reports_scanWave {fs : FileSystem} {strict : Bool} {order : List Text}
    {r : FileReport} : ∀ {ix : Index}, r ∈ (scanWave fs strict ix none order).2.2 ↔
      ∃ before path after, order = before ++ path :: after ∧
        r = ix.reportAfter fs strict before path := by
  induction order with
  | nil =>
      intro ix
      simp [scanWave]
  | cons path rest ih =>
      intro ix
      have hreports : (scanWave fs strict ix none (path :: rest)).2.2
          = (ix.scanFile fs strict path).2
            :: (scanWave fs strict (ix.scanFile fs strict path).1 none rest).2.2 := rfl
      rw [hreports, List.mem_cons, ih]
      constructor
      · rintro (rfl | ⟨before, p, after, rfl, rfl⟩)
        · exact ⟨[], path, rest, rfl, rfl⟩
        · exact ⟨path :: before, p, after, rfl, rfl⟩
      · rintro ⟨before, p, after, hsplit, rfl⟩
        cases before with
        | nil =>
            obtain ⟨rfl, rfl⟩ := List.cons.inj hsplit
            exact Or.inl rfl
        | cons b before =>
            obtain ⟨rfl, rfl⟩ := List.cons.inj hsplit
            exact Or.inr ⟨before, p, after, rfl, rfl⟩

end Index

/-! ## Waves in any order -/

/-- A scan between two waves: the paths queued so far, what is known, and the wave to come. -/
structure ScanState where
  queued : PathSet
  index : Index
  wave : List Text

namespace ScanState

/-- A scan of the given files before its first wave. -/
def start (ix : Index) (paths : List Text) : ScanState :=
  let (queued, wave) := enqueue ix.store.key ∅ paths
  ⟨queued, ix, wave⟩

/-- The reports on the files of a wave in the order of the wave, whatever the order in which they
come in. -/
def collect (wave : List Text) (reports : List FileReport) : List FileReport :=
  wave.filterMap fun path => reports.find? fun r => decide (r.path = path)

/-- The scan after a wave whose files are brought up to date in the given order. -/
def after (st : ScanState) (fs : FileSystem) (s : Settings) (order : List Text) : ScanState :=
  let (ix, _, reports) := st.index.scanWave fs s.showErrors none order
  let follow :=
    if s.scanImportedFiles then (collect st.wave reports).flatMap FileReport.follow else []
  let (queued, next) := enqueue ix.store.key st.queued follow
  ⟨queued, ix, next⟩

/-- Wave after wave, each in some order; `row` lists the files in the order in which they are
brought up to date. -/
inductive Run (fs : FileSystem) (s : Settings) : ScanState → List Text → ScanState → Prop
  | refl (st : ScanState) : Run fs s st [] st
  | wave {st st' : ScanState} {order row : List Text} : st.wave ≠ [] → order.Perm st.wave →
      Run fs s (st.after fs s order) row st' → Run fs s st (order ++ row) st'

end ScanState

/-- Some schedule of a scan of the given files brings the files of `row` up to date, in this
order, and ends with the index `ix'`. -/
def Index.Scans (fs : FileSystem) (s : Settings) (ix : Index) (paths row : List Text)
    (ix' : Index) : Prop :=
  ∃ st, ScanState.Run fs s (ScanState.start ix paths) row st ∧ st.wave = [] ∧ st.index = ix'

/-! ## Complete rows -/

namespace Index

/-- A file is asked for by a row of steps: it is one of the given files, or a step of the row found
it to follow. -/
def AskedFor (ix : Index) (fs : FileSystem) (s : Settings) (paths row : List Text) (q : Text) :
    Prop :=
  (∃ p ∈ paths, ix.store.key p = q) ∨
    (s.scanImportedFiles = true ∧ ∃ before p after, row = before ++ p :: after ∧
      ∃ f ∈ (ix.reportAfter fs s.showErrors before p).follow, ix.store.key f = q)

/-- A row that holds each file it asks for, once, and each of them after the file that asked. -/
structure CompleteRow (ix : Index) (fs : FileSystem) (s : Settings) (paths row : List Text) :
    Prop where
  nodup : row.Nodup
  mem_of_asked : ∀ q, ix.AskedFor fs s paths row q → q ∈ row
  grounded : ∀ before q after, row = before ++ q :: after → ix.AskedFor fs s paths before q

variable {ix : Index} {fs : FileSystem} {s : Settings} {paths row order : List Text} {q : Text}

/-- A longer row asks for what the shorter one asks for, and for what its further steps follow. -/
theorem askedFor_append_iff : ix.AskedFor fs s paths (row ++ order) q ↔
    ix.AskedFor fs s paths row q ∨
      (s.scanImportedFiles = true ∧ ∃ before p after, order = before ++ p :: after ∧
        ∃ f ∈ (ix.reportAfter fs s.showErrors (row ++ before) p).follow, ix.store.key f = q) := by
  constructor
  · rintro (hgiven | ⟨hfollow, before, p, after, hsplit, hf⟩)
    · exact Or.inl (Or.inl hgiven)
    · rcases List.append_eq_append_iff.mp hsplit with ⟨middle, rfl, horder⟩ | ⟨middle, hrow, horder⟩
      · exact Or.inr ⟨hfollow, middle, p, after, horder, hf⟩
      · -- the step is the last of the row, or stands further in front
        cases middle with
        | nil =>
            rw [List.append_nil] at hrow
            subst hrow
            exact Or.inr ⟨hfollow, [], p, after, horder.symm, by rwa [List.append_nil]⟩
        | cons m middle =>
            obtain ⟨rfl, rfl⟩ := List.cons.inj horder
            exact Or.inl (Or.inr ⟨hfollow, before, p, middle, hrow, hf⟩)
  · rintro ((hgiven | ⟨hfollow, before, p, after, rfl, hf⟩) | ⟨hfollow, before, p, after, rfl, hf⟩)
    · exact Or.inl hgiven
    · exact Or.inr ⟨hfollow, before, p, after ++ order, by simp, hf⟩
    · exact Or.inr ⟨hfollow, row ++ before, p, after, by simp, hf⟩

theorem AskedFor.append (h : ix.AskedFor fs s paths row q) (order : List Text) :
    ix.AskedFor fs s paths (row ++ order) q :=
  askedFor_append_iff.mpr (Or.inl h)

/-- What is asked for is clean and absolute. -/
theorem AskedFor.key_eq (hcwd : Path.isAbsolute ix.store.cwd = true)
    (h : ix.AskedFor fs s paths row q) : ix.store.key q = q := by
  rcases h with ⟨p, -, rfl⟩ | ⟨-, _, _, _, -, f, -, rfl⟩
  · exact Path.absolute_absolute hcwd p
  · exact Path.absolute_absolute hcwd f

end Index

namespace ScanState

variable {ix : Index} {fs : FileSystem} {s : Settings} {paths row order : List Text}
  {st st' : ScanState}

/-- A scan after the files of `row`: what is queued has been brought up to date or is in the wave
to come, and it is what the row asks for. -/
structure Reached (ix : Index) (fs : FileSystem) (s : Settings) (paths row : List Text)
    (st : ScanState) : Prop where
  index : st.index = ix.scanAll fs s.showErrors row
  nodup : (row ++ st.wave).Nodup
  queued : ∀ q, q ∈ st.queued ↔ q ∈ row ++ st.wave
  asked : ∀ q, ix.AskedFor fs s paths row q ↔ q ∈ row ++ st.wave
  grounded : ∀ before q after, row = before ++ q :: after → ix.AskedFor fs s paths before q

theorem reached_start (ix : Index) (fs : FileSystem) (s : Settings) (paths : List Text) :
    Reached ix fs s paths [] (start ix paths) := by
  have hwave : ∀ q, q ∈ (start ix paths).wave ↔ ∃ p ∈ paths, ix.store.key p = q := by
    intro q
    show q ∈ (enqueue ix.store.key ∅ paths).2 ↔ _
    rw [mem_enqueue]
    simp
  refine ⟨rfl, nodup_enqueue, ?_, ?_, by simp⟩
  · intro q
    rw [List.nil_append, hwave]
    show q ∈ (enqueue ix.store.key ∅ paths).1 ↔ _
    rw [mem_queued_enqueue]
    simp
  · intro q
    rw [List.nil_append, hwave, Index.AskedFor]
    simp

/-- Of reports on different files, the one on a file is found by its path. -/
theorem find?_report {reports : List FileReport} (hnodup : (reports.map FileReport.path).Nodup)
    {r : FileReport} (hr : r ∈ reports) :
    reports.find? (fun x => decide (x.path = r.path)) = some r := by
  obtain ⟨r', hfind⟩ : ∃ r', reports.find? (fun x => decide (x.path = r.path)) = some r' := by
    rw [← Option.isSome_iff_exists, List.find?_isSome]
    exact ⟨r, hr, by simp⟩
  have hsame : r'.path = r.path := by simpa using List.find?_some hfind
  rw [hfind, List.inj_on_of_nodup_map hnodup (List.mem_of_find?_eq_some hfind) hr hsame]

/-- No report is lost when the reports are put in order. -/
theorem mem_collect {wave : List Text} {reports : List FileReport}
    (hperm : (reports.map FileReport.path).Perm wave) (hnodup : wave.Nodup) {r : FileReport} :
    r ∈ collect wave reports ↔ r ∈ reports := by
  rw [collect, List.mem_filterMap]
  constructor
  · rintro ⟨path, -, hfind⟩
    exact List.mem_of_find?_eq_some hfind
  · intro hr
    have hpath : r.path ∈ wave := hperm.subset (List.mem_map_of_mem hr)
    exact ⟨r.path, hpath, find?_report (hperm.nodup_iff.mpr hnodup) hr⟩

/-- Reports that come in order stay in order. -/
theorem collect_self {reports : List FileReport} (hnodup : (reports.map FileReport.path).Nodup) :
    collect (reports.map FileReport.path) reports = reports := by
  rw [collect, List.filterMap_map]
  calc reports.filterMap _ = reports.filterMap some :=
        List.filterMap_congr fun r hr => find?_report hnodup hr
    _ = reports := List.filterMap_some

theorem index_after (st : ScanState) (fs : FileSystem) (s : Settings) (order : List Text) :
    (st.after fs s order).index = st.index.scanAll fs s.showErrors order :=
  (Index.scanWave_none fs s.showErrors order st.index).1

/-- The files that a wave asks for. -/
theorem exists_follow_after (st : ScanState) (fs : FileSystem) (s : Settings)
    (hperm : order.Perm st.wave) (hnodup : st.wave.Nodup) :
    ∃ follow, (∀ f, f ∈ follow ↔ s.scanImportedFiles = true ∧ ∃ before p after,
        order = before ++ p :: after ∧
        f ∈ (st.index.reportAfter fs s.showErrors before p).follow) ∧
      (st.after fs s order).queued = (enqueue st.index.store.key st.queued follow).1 ∧
      (st.after fs s order).wave = (enqueue st.index.store.key st.queued follow).2 := by
  have hkey : (st.index.scanWave fs s.showErrors none order).1.store.key = st.index.store.key := by
    rw [(Index.scanWave_none fs s.showErrors order st.index).1, Index.key_scanAll]
  refine ⟨if s.scanImportedFiles then
    (collect st.wave (st.index.scanWave fs s.showErrors none order).2.2).flatMap FileReport.follow
    else [], ?_, ?_, ?_⟩
  · intro f
    have hreports := Index.map_path_scanWave fs s.showErrors order st.index
    split_ifs with hfollow
    · simp only [List.mem_flatMap, mem_collect (by rw [hreports]; exact hperm) hnodup,
        Index.mem_reports_scanWave, hfollow, true_and]
      constructor
      · rintro ⟨r, ⟨before, p, after, hsplit, rfl⟩, hf⟩
        exact ⟨before, p, after, hsplit, hf⟩
      · rintro ⟨before, p, after, hsplit, hf⟩
        exact ⟨_, ⟨before, p, after, hsplit, rfl⟩, hf⟩
    · simp [hfollow]
  · rw [← hkey]
    rfl
  · rw [← hkey]
    rfl

/-- **One wave.** -/
theorem Reached.after (h : Reached ix fs s paths row st) (hperm : order.Perm st.wave) :
    Reached ix fs s paths (row ++ order) (st.after fs s order) := by
  obtain ⟨hnodupRow, hnodupWave, hdisjoint⟩ := List.nodup_append.mp h.nodup
  obtain ⟨follow, hfollow, hqueued, hwave⟩ := st.exists_follow_after fs s hperm hnodupWave
  have hkey : st.index.store.key = ix.store.key := by rw [h.index, Index.key_scanAll]
  have hmem : ∀ q, q ∈ row ++ order ↔ q ∈ row ++ st.wave := by
    intro q
    rw [List.mem_append, List.mem_append, hperm.mem_iff]
  -- what the steps of this wave follow
  have hnew : ∀ q, (∃ f ∈ follow, ix.store.key f = q) ↔
      s.scanImportedFiles = true ∧ ∃ before p after, order = before ++ p :: after ∧
        ∃ f ∈ (ix.reportAfter fs s.showErrors (row ++ before) p).follow, ix.store.key f = q := by
    intro q
    have hreport : ∀ before p, st.index.reportAfter fs s.showErrors before p
        = ix.reportAfter fs s.showErrors (row ++ before) p := by
      intro before p
      rw [Index.reportAfter, Index.reportAfter, Index.scanAll_append, h.index]
    constructor
    · rintro ⟨f, hf, rfl⟩
      obtain ⟨himports, before, p, after, hsplit, hf⟩ := (hfollow f).mp hf
      rw [hreport] at hf
      exact ⟨himports, before, p, after, hsplit, f, hf, rfl⟩
    · rintro ⟨himports, before, p, after, hsplit, f, hf, rfl⟩
      rw [← hreport] at hf
      exact ⟨f, (hfollow f).mpr ⟨himports, before, p, after, hsplit, hf⟩, rfl⟩
  have hnext : ∀ q, q ∈ (st.after fs s order).wave ↔
      q ∉ row ++ order ∧ ∃ f ∈ follow, ix.store.key f = q := by
    intro q
    rw [hwave, mem_enqueue, h.queued, hkey, hmem]
  refine ⟨?_, ?_, ?_, ?_, ?_⟩
  · rw [index_after, h.index, Index.scanAll_append]
  · have hfront : (row ++ order).Nodup :=
      (List.Perm.append_left row hperm).nodup_iff.mpr h.nodup
    refine List.nodup_append.mpr ⟨hfront, by rw [hwave]; exact nodup_enqueue, ?_⟩
    rintro q hq _ hq' rfl
    exact ((hnext q).mp hq').1 hq
  · intro q
    rw [hqueued, mem_queued_enqueue, h.queued, hkey, ← hmem, List.mem_append (s := row ++ order),
      hnext]
    tauto
  · intro q
    rw [Index.askedFor_append_iff, h.asked, ← hmem, ← hnew, List.mem_append (s := row ++ order),
      hnext]
    tauto
  · intro before q after hsplit
    rcases List.append_eq_append_iff.mp hsplit with ⟨middle, rfl, horder⟩ | ⟨middle, hrow, horder⟩
    · -- a file of this wave is asked for by the row in front of the wave
      have hq : q ∈ st.wave := hperm.subset (by rw [horder]; simp)
      exact ((h.asked q).mpr (List.mem_append_right _ hq)).append middle
    · cases middle with
      | nil =>
          rw [List.append_nil] at hrow
          rw [List.nil_append] at horder
          subst hrow
          have hq : q ∈ st.wave := hperm.subset (by rw [← horder]; simp)
          exact (h.asked q).mpr (List.mem_append_right _ hq)
      | cons m middle =>
          obtain ⟨rfl, rfl⟩ := List.cons.inj horder
          exact h.grounded before q middle hrow

/-- **Wave after wave.** -/
theorem Reached.run (h : Reached ix fs s paths row st) {more : List Text}
    (hrun : Run fs s st more st') : Reached ix fs s paths (row ++ more) st' := by
  induction hrun generalizing row with
  | refl st => rwa [List.append_nil]
  | @wave st st' order more _ hperm _ ih =>
      have hnext := ih (h.after hperm)
      rwa [List.append_assoc] at hnext

end ScanState

/-- **The row of a finished scan is complete**, and the index is what its steps leave. -/
theorem Index.Scans.complete {ix ix' : Index} {fs : FileSystem} {s : Settings}
    {paths row : List Text} (h : ix.Scans fs s paths row ix') :
    ix.CompleteRow fs s paths row ∧ ix' = ix.scanAll fs s.showErrors row := by
  obtain ⟨st, hrun, hwave, rfl⟩ := h
  have hreached := (ScanState.reached_start ix fs s paths).run hrun
  rw [List.nil_append] at hreached
  obtain ⟨hindex, hnodup, -, hasked, hgrounded⟩ := hreached
  rw [hwave, List.append_nil] at hnodup
  refine ⟨⟨hnodup, ?_, hgrounded⟩, hindex⟩
  intro q hq
  have hmem := (hasked q).mp hq
  rwa [hwave, List.append_nil] at hmem

/-! ## Every schedule comes to an end -/

/-- A file that is followed exists, under its clean absolute path. -/
theorem Store.isFile_of_importedFile_onDisk {s : Store} {fs : FileSystem} {target f : Text}
    (hcwd : Path.isAbsolute fs.cwd = true) (hstore : s.cwd = fs.cwd)
    (h : s.importedFile fs target = .onDisk f) : fs.isFile f = true := by
  simp only [importedFile] at h
  split at h
  · cases h
  · split at h
    · next c hc =>
      cases h
      have hfile : fs.isFile c = true := List.find?_some hc
      rw [key, hstore]
      exact FileSystem.isFile_absolute hcwd hfile
    · cases h

namespace ScanState

/-- The files that are not queued. -/
def unqueued (fs : FileSystem) (queued : PathSet) : List Text :=
  fs.filePaths.filter fun p => decide (p ∉ queued)

theorem length_unqueued_le (fs : FileSystem) (queued : PathSet) :
    (unqueued fs queued).length ≤ fs.top.fileCount := by
  rw [← fs.length_filePaths]
  exact List.length_filter_le _ _

/-- A file that is queued is one file less to queue. -/
theorem length_unqueued_lt {fs : FileSystem} {queued queued' : PathSet} {p : Text}
    (hsub : ∀ q, q ∈ queued → q ∈ queued') (hp : p ∈ fs.filePaths) (hold : p ∉ queued)
    (hnew : p ∈ queued') : (unqueued fs queued').length < (unqueued fs queued).length := by
  have hfilter : unqueued fs queued'
      = (unqueued fs queued).filter fun q => decide (q ∉ queued') := by
    rw [unqueued, unqueued, List.filter_filter]
    refine List.filter_congr fun q _ => ?_
    by_cases hq : q ∈ queued
    · simp [hq, hsub q hq]
    · simp [hq]
  rw [hfilter]
  refine List.length_filter_lt_length_iff_exists.mpr ⟨p, ?_, by simpa using hnew⟩
  rw [unqueued, List.mem_filter]
  exact ⟨hp, by simpa using hold⟩

variable {fs : FileSystem} {s : Settings} {order : List Text} {st st' : ScanState}

theorem cwd_after (st : ScanState) (fs : FileSystem) (s : Settings) (order : List Text) :
    (st.after fs s order).index.store.cwd = st.index.store.cwd := by
  rw [index_after, Index.cwd_scanAll]

/-- **A wave that follows files leaves fewer of them.** -/
theorem length_unqueued_after (hcwd : Path.isAbsolute fs.cwd = true)
    (hstore : st.index.store.cwd = fs.cwd) (hperm : order.Perm st.wave) (hnodup : st.wave.Nodup)
    (hwave : (st.after fs s order).wave ≠ []) :
    (unqueued fs (st.after fs s order).queued).length < (unqueued fs st.queued).length := by
  obtain ⟨follow, hfollow, hqueued, hnext⟩ := st.exists_follow_after fs s hperm hnodup
  obtain ⟨q, hq⟩ := List.exists_mem_of_ne_nil _ hwave
  rw [hnext, mem_enqueue] at hq
  obtain ⟨hold, f, hf, rfl⟩ := hq
  have hkey : st.index.store.key = Path.absolute fs.cwd := by
    funext p
    rw [Store.key, hstore]
  -- the file exists, and so does its clean form
  obtain ⟨-, before, p, after, -, hreport⟩ := (hfollow f).mp hf
  obtain ⟨target, htarget⟩ := Index.exists_import_of_mem_follow hreport
  have hfile : fs.isFile f = true := by
    refine Store.isFile_of_importedFile_onDisk hcwd ?_ htarget
    rw [Index.cwd_scanFile, Index.cwd_scanAll, hstore]
  have hmem : st.index.store.key f ∈ fs.filePaths := by
    rw [hkey]
    exact FileSystem.mem_filePaths hcwd (Path.absolute_absolute hcwd f)
      (FileSystem.isFile_absolute hcwd hfile)
  refine length_unqueued_lt ?_ hmem hold ?_
  · intro q hq
    rw [hqueued, mem_queued_enqueue]
    exact Or.inl hq
  · rw [hqueued, mem_queued_enqueue]
    exact Or.inr ⟨f, hf, rfl⟩

theorem nodup_wave_after (st : ScanState) (fs : FileSystem) (s : Settings) (order : List Text) :
    (st.after fs s order).wave.Nodup :=
  nodup_enqueue

/-- The reports on a wave that is taken in its own order come in that order. -/
theorem collect_scanWave (ix : Index) (fs : FileSystem) (strict : Bool) {wave : List Text}
    (hnodup : wave.Nodup) :
    collect wave (ix.scanWave fs strict none wave).2.2 = (ix.scanWave fs strict none wave).2.2 := by
  have hreports := Index.map_path_scanWave fs strict wave ix
  have hself : collect _ (ix.scanWave fs strict none wave).2.2 = _ :=
    collect_self (by rw [hreports]; exact hnodup)
  rwa [hreports] at hself

/-- The waves of a scan are its first wave and those of the scan after it. -/
theorem scanWaves_succ (fs : FileSystem) (s : Settings) (limit : Nat) (hwave : st.wave ≠ [])
    (hnodup : st.wave.Nodup) :
    Index.scanWaves fs s (limit + 1) st.queued st.index none st.wave
      = { Index.scanWaves fs s limit (st.after fs s st.wave).queued (st.after fs s st.wave).index
            none (st.after fs s st.wave).wave with
          waves := ⟨st.wave.length, (st.index.scanWave fs s.showErrors none st.wave).2.2⟩
            :: (Index.scanWaves fs s limit (st.after fs s st.wave).queued
              (st.after fs s st.wave).index none (st.after fs s st.wave).wave).waves } := by
  have hgo : (st.wave.isEmpty || Patience.isOver none) = false := by
    simp [hwave, Patience.isOver]
  have hpatience := (Index.scanWave_none fs s.showErrors st.wave st.index).2
  rw [Index.scanWaves, hgo]
  simp only [ScanState.after, collect_scanWave st.index fs s.showErrors hnodup, hpatience]
  rfl

/-- The waves of a scan, as many as there may be, are a run to the end. -/
theorem exists_run_scanWaves (hcwd : Path.isAbsolute fs.cwd = true) (limit : Nat) :
    ∀ st : ScanState, st.wave = [] ∨ (unqueued fs st.queued).length < limit →
      st.index.store.cwd = fs.cwd → st.wave.Nodup →
      ∃ st', Run fs s st ((Index.scanWaves fs s limit st.queued st.index none st.wave).reports.map
          FileReport.path) st' ∧ st'.wave = [] ∧
        st'.index = (Index.scanWaves fs s limit st.queued st.index none st.wave).index := by
  induction limit with
  | zero =>
      intro st hlimit _ _
      have hwave : st.wave = [] := by
        rcases hlimit with h | h
        · exact h
        · omega
      exact ⟨st, .refl st, hwave, rfl⟩
  | succ limit ih =>
      intro st hlimit hstore hnodup
      by_cases hwave : st.wave = []
      · refine ⟨st, ?_, hwave, ?_⟩
        · rw [hwave]
          exact .refl st
        · rw [hwave]
          rfl
      · have hreports := Index.map_path_scanWave fs s.showErrors st.wave st.index
        have hstep := scanWaves_succ fs s limit hwave hnodup
        have hlimit' : (st.after fs s st.wave).wave = [] ∨
            (unqueued fs (st.after fs s st.wave).queued).length < limit := by
          by_cases hnext : (st.after fs s st.wave).wave = []
          · exact Or.inl hnext
          · have hless := length_unqueued_after hcwd hstore (List.Perm.refl _) hnodup hnext
            have hold := hlimit.resolve_left hwave
            exact Or.inr (by omega)
        obtain ⟨st', hrun, hend, hindex⟩ := ih (st.after fs s st.wave) hlimit'
          (by rw [cwd_after, hstore]) (st.nodup_wave_after fs s st.wave)
        refine ⟨st', ?_, hend, by rw [hstep]; exact hindex⟩
        have hrow : (Index.scanWaves fs s (limit + 1) st.queued st.index none st.wave).reports.map
            FileReport.path
              = st.wave ++ (Index.scanWaves fs s limit (st.after fs s st.wave).queued
                  (st.after fs s st.wave).index none (st.after fs s st.wave).wave).reports.map
                    FileReport.path := by
          rw [hstep, ScanRun.reports, List.flatMap_cons, List.map_append, hreports]
          rfl
        rw [hrow]
        exact .wave hwave (List.Perm.refl _) hrun

end ScanState

/-- **The scan of an index is a schedule that comes to its end**: each wave is taken in its own
order, and the limit on their number is never met. -/
theorem Index.scans_scan {ix : Index} {fs : FileSystem} (s : Settings)
    (hcwd : Path.isAbsolute fs.cwd = true) (hstore : ix.store.cwd = fs.cwd) (paths : List Text) :
    ix.Scans fs s paths ((ix.scan fs s none paths).reports.map FileReport.path)
      (ix.scan fs s none paths).index := by
  have hlimit := ScanState.length_unqueued_le fs (ScanState.start ix paths).queued
  obtain ⟨st, hrun, hwave, hindex⟩ := ScanState.exists_run_scanWaves (s := s) hcwd
    (fs.top.fileCount + 1) (ScanState.start ix paths) (Or.inr (by omega)) hstore nodup_enqueue
  exact ⟨st, hrun, hwave, hindex⟩

end StyleIndex
