import Mathlib
import StyleIndex.Proofs.Scan.Cache
import StyleIndex.Proofs.Scan.Record

set_option autoImplicit false

/-! # Files that do not parse

In strict mode a file that does not parse is reported and otherwise passed over. `scan_isolates`
says what this means for a whole scan: what was known about such a file is kept, the failure lists
one error for each of them, and a scan that is not given these files ends with the same index.

Whether a file fails is settled before the scan begins (`Index.fault?`). It depends on the content
of the file and on the record and the digest of its own path, which no other step touches, and its
own step does not change the answer (`fault?_scanFile`). So along a scan the failing files are
always the same, and their steps do nothing (`scanFile_of_fault?`).

For the second scan, two scans are *alike* (`ScanState.Alike`) if they know the same and their waves
and queues differ in failing files only. One wave keeps them alike (`Alike.after`): it may reach
other failing files than the other scan does, but follows nothing from them.
-/

namespace StyleIndex

/-! ## Reports of failures -/

/-- The error of a file that does not parse. -/
def FileReport.error? (r : FileReport) : Option ParseError :=
  match r.outcome with
  | .failed e => some e
  | _ => none

/-- The paths of the files that do not parse, in the order in which they are scanned. -/
def ScanRun.failedPaths (r : ScanRun) : List Text :=
  (r.reports.filter fun report => report.error?.isSome).map FileReport.path

theorem ScanRun.errors_eq (r : ScanRun) : r.errors = r.reports.filterMap FileReport.error? := rfl

/-- A parse error carries the path of the file. -/
theorem path_of_extract_error {path t : Text} {scope : Option Int} {strict : Bool} {e : ParseError}
    (h : extract path t scope strict = .error e) : e.path = path := by
  unfold extract extractStrict at h
  split_ifs at h
  split at h <;> cases h
  rfl

/-! ## One step -/

namespace Index

variable {ix ix' : Index} {fs : FileSystem} {strict : Bool} {path p : Text} {e : ParseError}

/-- The error of a file, if it does not parse when it is brought up to date. -/
def fault? (ix : Index) (fs : FileSystem) (strict : Bool) (path : Text) : Option ParseError :=
  (ix.scanFile fs strict path).2.error?

/-- A file fails if it can be read, has no record for its content, and does not parse. -/
theorem fault?_eq_some_iff : ix.fault? fs strict path = some e ↔
    ∃ content, fs.read path = .ok content ∧ ix.current? path content.digest = none ∧
      extract path content none strict = .error e := by
  rw [fault?, scanFile]
  cases hread : fs.read path with
  | error fault => simp [FileReport.error?]
  | ok content =>
      cases hcurrent : ix.current? path content.digest with
      | some d => simp [FileReport.error?, finish, hcurrent]
      | none =>
          cases hextract : extract path content none strict with
          | error e' => simp [FileReport.error?, hcurrent, hextract]
          | ok d => simp [FileReport.error?, finish, hcurrent, hextract]

theorem path_of_fault? (h : ix.fault? fs strict path = some e) : e.path = path := by
  obtain ⟨content, -, -, hextract⟩ := fault?_eq_some_iff.mp h
  exact path_of_extract_error hextract

/-- **The step of a file that fails changes nothing and follows nothing.** -/
theorem scanFile_of_fault? (h : ix.fault? fs strict path = some e) :
    ix.scanFile fs strict path = (ix, ⟨path, .failed e, []⟩) := by
  obtain ⟨content, hread, hcurrent, hextract⟩ := fault?_eq_some_iff.mp h
  rw [scanFile, hread]
  simp only [hcurrent, hextract]

/-- Whether a file fails depends on what is known about itself. -/
theorem Untouched.fault?_eq (h : Untouched ix ix' p) (fs : FileSystem) (strict : Bool) :
    ix'.fault? fs strict p = ix.fault? fs strict p := by
  have hcurrent : ∀ digest, ix'.current? p digest = ix.current? p digest := by
    intro digest
    rw [current?, current?, h.digest, h.record]
  ext e
  simp only [fault?_eq_some_iff, hcurrent]

theorem Untouched.refl (ix : Index) (q : Text) : Untouched ix ix q := ⟨rfl, rfl, rfl⟩

theorem Untouched.trans {jx : Index} (h : Untouched ix jx p) (h' : Untouched jx ix' p) :
    Untouched ix ix' p :=
  ⟨h'.record.trans h.record, h'.dependencies.trans h.dependencies, h'.digest.trans h.digest⟩

/-- A file that does not fail does not fail after its step. -/
theorem fault?_scanFile_self (h : ix.fault? fs strict path = none) :
    (ix.scanFile fs strict path).1.fault? fs strict path = none := by
  rw [Option.eq_none_iff_forall_ne_some]
  intro e he
  obtain ⟨content, hread, hcurrent', hextract⟩ := fault?_eq_some_iff.mp he
  cases hcurrent : ix.current? path content.digest with
  | none =>
      rw [fault?_eq_some_iff.mpr ⟨content, hread, hcurrent, hextract⟩] at h
      cases h
  | some d =>
      -- the content is that of the record, and the step leaves the record as it is
      have hstep : (ix.scanFile fs strict path).1 = ix.linkImports fs d := by
        rw [scanFile, hread]
        simp only [hcurrent]
        rfl
      have hsame : (ix.linkImports fs d).current? path content.digest
          = ix.current? path content.digest := rfl
      rw [hstep, hsame, hcurrent] at hcurrent'
      cases hcurrent'

/-- **No step changes which files fail.** -/
theorem fault?_scanFile (hpath : ix.store.key path = path) (hp : ix.store.key p = p) :
    (ix.scanFile fs strict path).1.fault? fs strict p = ix.fault? fs strict p := by
  by_cases hne : path = p
  · subst hne
    cases h : ix.fault? fs strict path with
    | none => exact fault?_scanFile_self h
    | some e => rw [scanFile_of_fault? h, h]
  · exact (untouched_scanFile fs strict hpath hp hne).fault?_eq fs strict

/-! ## A row of steps -/

variable {row : List Text}

theorem fault?_scanAll (hrow : ∀ q ∈ row, ix.store.key q = q) (hp : ix.store.key p = p) :
    (ix.scanAll fs strict row).fault? fs strict p = ix.fault? fs strict p := by
  induction row generalizing ix with
  | nil => rfl
  | cons path row ih =>
      have hkey := ix.key_scanFile fs strict path
      have hpath := hrow path List.mem_cons_self
      show ((ix.scanFile fs strict path).1.scanAll fs strict row).fault? fs strict p = _
      rw [ih (by rw [hkey]; exact fun q hq => hrow q (List.mem_cons_of_mem _ hq))
        (by rw [hkey]; exact hp), fault?_scanFile hpath hp]

/-- **What is known about a file that fails is kept.** -/
theorem untouched_scanAll (hrow : ∀ q ∈ row, ix.store.key q = q) (hp : ix.store.key p = p)
    (h : ix.fault? fs strict p = some e) : Untouched ix (ix.scanAll fs strict row) p := by
  induction row generalizing ix with
  | nil => exact Untouched.refl ix p
  | cons path row ih =>
      have hkey := ix.key_scanFile fs strict path
      have hpath := hrow path List.mem_cons_self
      have hrest : Untouched (ix.scanFile fs strict path).1
          ((ix.scanFile fs strict path).1.scanAll fs strict row) p :=
        ih (by rw [hkey]; exact fun q hq => hrow q (List.mem_cons_of_mem _ hq))
          (by rw [hkey]; exact hp) (by rw [fault?_scanFile hpath hp, h])
      have hstep : Untouched ix (ix.scanFile fs strict path).1 p := by
        by_cases hne : path = p
        · subst hne
          rw [scanFile_of_fault? h]
          exact Untouched.refl ix path
        · exact untouched_scanFile fs strict hpath hp hne
      exact hstep.trans hrest

/-- A wave leaves the same index, and follows the same files, without the files that fail. -/
theorem scanWave_filter {wave : List Text} (hwave : ∀ q ∈ wave, ix.store.key q = q) :
    let parsing := wave.filter fun q => (ix.fault? fs strict q).isNone
    (scanWave fs strict ix none parsing).1 = (scanWave fs strict ix none wave).1 ∧
      (scanWave fs strict ix none parsing).2.2.flatMap FileReport.follow
        = (scanWave fs strict ix none wave).2.2.flatMap FileReport.follow := by
  induction wave generalizing ix with
  | nil => exact ⟨rfl, rfl⟩
  | cons path wave ih =>
      have hpath := hwave path List.mem_cons_self
      have hrest : ∀ q ∈ wave, ix.store.key q = q :=
        fun q hq => hwave q (List.mem_cons_of_mem _ hq)
      have hstep : ∀ rest : List Text, scanWave fs strict ix none (path :: rest)
          = ((scanWave fs strict (ix.scanFile fs strict path).1 none rest).1,
            (scanWave fs strict (ix.scanFile fs strict path).1 none rest).2.1,
            (ix.scanFile fs strict path).2
              :: (scanWave fs strict (ix.scanFile fs strict path).1 none rest).2.2) :=
        fun _ => rfl
      cases h : ix.fault? fs strict path with
      | some e =>
          -- the filter leaves out a step that does nothing
          simp only [List.filter_cons, h, Option.isNone_some, Bool.false_eq_true, if_false]
          rw [hstep, scanFile_of_fault? h]
          exact ih hrest
      | none =>
          have hkey := ix.key_scanFile fs strict path
          have hfilter : (wave.filter fun q => (ix.fault? fs strict q).isNone)
              = wave.filter fun q =>
                ((ix.scanFile fs strict path).1.fault? fs strict q).isNone :=
            List.filter_congr fun q hq => by rw [fault?_scanFile hpath (hrest q hq)]
          simp only [List.filter_cons, h, Option.isNone_none, if_true]
          rw [← hkey] at hrest
          obtain ⟨hindex, hfollow⟩ := ih hrest
          rw [hstep, hstep, hfilter]
          refine ⟨hindex, ?_⟩
          simp only [List.flatMap_cons, hfollow]

end Index

/-! ## The queue without some of the paths -/

/-- To queue only good paths is to take the good ones of what is queued. -/
theorem filter_enqueue {key : Text → Text} {good : Text → Bool} {paths : List Text} :
    ∀ {queued queued' : PathSet}, (∀ q, good q = true → (q ∈ queued' ↔ q ∈ queued)) →
      (enqueue key queued' (paths.filter fun p => good (key p))).2
        = (enqueue key queued paths).2.filter good := by
  induction paths with
  | nil =>
      intro queued queued' _
      rfl
  | cons p rest ih =>
      intro queued queued' hsame
      by_cases hp : good (key p) = true
      · have hkept : ((p :: rest).filter fun p => good (key p))
            = p :: rest.filter fun p => good (key p) := List.filter_cons_of_pos hp
        have hqueued : queued'.contains (key p) = queued.contains (key p) := by
          rw [Bool.eq_iff_iff, Std.ExtTreeSet.contains_iff_mem, Std.ExtTreeSet.contains_iff_mem]
          exact hsame _ hp
        rw [hkept, enqueue, enqueue, hqueued]
        split_ifs
        · exact ih hsame
        · have hinsert : ∀ q, good q = true →
              (q ∈ queued'.insert (key p) ↔ q ∈ queued.insert (key p)) := by
            intro q hq
            rw [Std.ExtTreeSet.mem_insert, Std.ExtTreeSet.mem_insert, hsame q hq]
          show key p :: _ = (key p :: _).filter good
          rw [List.filter_cons_of_pos hp, ih hinsert]
      · have hdropped : ((p :: rest).filter fun p => good (key p))
            = rest.filter fun p => good (key p) := List.filter_cons_of_neg hp
        rw [hdropped, enqueue]
        split_ifs
        · exact ih hsame
        · -- one of the queues gains a path that is not good
          have hinsert : ∀ q, good q = true → (q ∈ queued' ↔ q ∈ queued.insert (key p)) := by
            intro q hq
            have hne : key p ≠ q := by
              rintro rfl
              exact hp hq
            rw [hsame q hq, Std.ExtTreeSet.mem_insert, Std.LawfulEqCmp.compare_eq_iff_eq]
            exact (or_iff_right hne).symm
          show _ = (key p :: _).filter good
          rw [List.filter_cons_of_neg hp, ih hinsert]

/-! ## Wave after wave -/

namespace ScanState

variable {fs : FileSystem} {s : Settings} {fault : Text → Option ParseError} {st st' : ScanState}

/-- The files that the wave to come asks for, if it is taken in its own order. -/
def follow (st : ScanState) (fs : FileSystem) (s : Settings) : List Text :=
  if s.scanImportedFiles then
    (st.index.scanWave fs s.showErrors none st.wave).2.2.flatMap FileReport.follow
  else []

theorem after_wave (hnodup : st.wave.Nodup) : st.after fs s st.wave
    = ⟨(enqueue st.index.store.key st.queued (st.follow fs s)).1,
        st.index.scanAll fs s.showErrors st.wave,
        (enqueue st.index.store.key st.queued (st.follow fs s)).2⟩ := by
  have hkey := Index.key_scanAll st.index fs s.showErrors st.wave
  simp only [ScanState.after, collect_scanWave st.index fs s.showErrors hnodup,
    (Index.scanWave_none fs s.showErrors st.wave st.index).1, hkey]
  rfl

/-- A scan and the rest of it after its first wave, which may be empty. -/
theorem scanWaves_after (fs : FileSystem) (s : Settings) (hnodup : st.wave.Nodup) (limit : Nat) :
    let run := Index.scanWaves fs s (limit + 1) st.queued st.index none st.wave
    let next := st.after fs s st.wave
    let rest := Index.scanWaves fs s limit next.queued next.index none next.wave
    run.index = rest.index ∧ run.patience = rest.patience ∧
      run.reports = (st.index.scanWave fs s.showErrors none st.wave).2.2 ++ rest.reports := by
  by_cases hwave : st.wave = []
  · obtain ⟨queued, ix, wave⟩ := st
    simp only at hwave
    subst hwave
    have hnext : after ⟨queued, ix, []⟩ fs s [] = ⟨queued, ix, []⟩ := by
      rw [after_wave List.nodup_nil]
      simp [follow, Index.scanWave, Index.scanAll, enqueue]
    simp only [hnext]
    cases limit <;> exact ⟨rfl, rfl, rfl⟩
  · have hstep := scanWaves_succ fs s limit hwave hnodup
    simp only [hstep]
    exact ⟨trivial, trivial, rfl⟩

/-- A scan between two waves, where `fault` tells the error of each file that fails. -/
structure Faults (fs : FileSystem) (s : Settings) (fault : Text → Option ParseError)
    (st : ScanState) : Prop where
  cwd : Path.isAbsolute st.index.store.cwd = true
  clean : ∀ p ∈ st.wave, st.index.store.key p = p
  nodup : st.wave.Nodup
  fault_eq : ∀ p, st.index.store.key p = p → st.index.fault? fs s.showErrors p = fault p

theorem faults_start {ix : Index} (fs : FileSystem) (s : Settings)
    (hcwd : Path.isAbsolute ix.store.cwd = true) (paths : List Text) :
    Faults fs s (ix.fault? fs s.showErrors) (start ix paths) where
  cwd := hcwd
  clean := fun _ hp => key_of_mem_enqueue hcwd hp
  nodup := nodup_enqueue
  fault_eq := fun _ _ => rfl

/-- **A wave does not change which files fail.** -/
theorem Faults.after (h : Faults fs s fault st) : Faults fs s fault (st.after fs s st.wave) := by
  have hkey := Index.key_scanAll st.index fs s.showErrors st.wave
  rw [after_wave h.nodup]
  refine ⟨?_, ?_, nodup_enqueue, ?_⟩
  · rw [Index.cwd_scanAll]
    exact h.cwd
  · intro p hp
    rw [hkey]
    exact key_of_mem_enqueue h.cwd hp
  · intro p hp
    simp only [hkey] at hp
    exact (Index.fault?_scanAll h.clean hp).trans (h.fault_eq p hp)

/-- **A scan reports the faults of its files**, and does not lose its patience. -/
theorem Faults.scanWaves (h : Faults fs s fault st) (limit : Nat) :
    (Index.scanWaves fs s limit st.queued st.index none st.wave).patience = none ∧
      ∀ r ∈ (Index.scanWaves fs s limit st.queued st.index none st.wave).reports,
        r.error? = fault r.path := by
  induction limit generalizing st with
  | zero => exact ⟨rfl, by simp [Index.scanWaves, ScanRun.reports]⟩
  | succ limit ih =>
      obtain ⟨-, hpatience, hreports⟩ := scanWaves_after fs s h.nodup limit
      obtain ⟨hleft, hlater⟩ := ih h.after
      refine ⟨hpatience.trans hleft, ?_⟩
      intro r hr
      rw [hreports] at hr
      rcases List.mem_append.mp hr with hr | hr
      · obtain ⟨before, path, rest, hsplit, rfl⟩ := Index.mem_reports_scanWave.mp hr
        have hpath : st.index.store.key path = path := h.clean path (by rw [hsplit]; simp)
        have hbefore : ∀ q ∈ before, st.index.store.key q = q :=
          fun q hq => h.clean q (by rw [hsplit]; exact List.mem_append_left _ hq)
        have hreport : (st.index.reportAfter fs s.showErrors before path).path = path :=
          Index.path_scanFile _ fs s.showErrors path
        rw [hreport, ← h.fault_eq path hpath]
        exact Index.fault?_scanAll hbefore hpath
      · exact hlater r hr

/-- Two scans between two waves that know the same, and whose waves and queues differ in failing
files only. -/
structure Alike (fs : FileSystem) (s : Settings) (fault : Text → Option ParseError)
    (st st' : ScanState) : Prop where
  faults : Faults fs s fault st
  faults' : Faults fs s fault st'
  index : st'.index = st.index
  wave : (st'.wave.filter fun p => (fault p).isNone) = st.wave.filter fun p => (fault p).isNone
  queued : ∀ q, (fault q).isNone = true → (q ∈ st'.queued ↔ q ∈ st.queued)

/-- A scan that is given fewer files is like the one that is given all, if the files left out
fail. -/
theorem alike_start {ix : Index} (hcwd : Path.isAbsolute ix.store.cwd = true) {paths : List Text}
    {kept : Text → Bool}
    (hkept : ∀ p ∈ paths, ix.fault? fs s.showErrors (ix.store.key p) = none → kept p = true) :
    Alike fs s (ix.fault? fs s.showErrors) (start ix paths) (start ix (paths.filter kept)) where
  faults := faults_start fs s hcwd paths
  faults' := faults_start fs s hcwd (paths.filter kept)
  index := rfl
  wave := by
    have hgood : ((paths.filter kept).filter fun p =>
          (ix.fault? fs s.showErrors (ix.store.key p)).isNone)
        = paths.filter fun p => (ix.fault? fs s.showErrors (ix.store.key p)).isNone := by
      rw [List.filter_filter]
      refine List.filter_congr fun p hp => ?_
      cases hfault : ix.fault? fs s.showErrors (ix.store.key p) with
      | none => simp [hkept p hp hfault]
      | some e => simp
    show (enqueue ix.store.key ∅ (paths.filter kept)).2.filter _
      = (enqueue ix.store.key ∅ paths).2.filter _
    rw [← filter_enqueue fun _ _ => Iff.rfl, ← filter_enqueue fun _ _ => Iff.rfl, hgood]
  queued := by
    intro q hq
    show q ∈ (enqueue ix.store.key ∅ (paths.filter kept)).1 ↔ q ∈ (enqueue ix.store.key ∅ paths).1
    rw [mem_queued_enqueue, mem_queued_enqueue]
    refine or_congr_right ⟨?_, ?_⟩
    · rintro ⟨p, hp, hkey⟩
      exact ⟨p, (List.mem_filter.mp hp).1, hkey⟩
    · rintro ⟨p, hp, rfl⟩
      exact ⟨p, List.mem_filter.mpr ⟨hp, hkept p hp (Option.isNone_iff_eq_none.mp hq)⟩, rfl⟩

/-- What a wave does is what it does without the failing files. -/
theorem Faults.scanWave_filter (h : Faults fs s fault st) :
    let parsing := st.wave.filter fun p => (fault p).isNone
    (st.index.scanWave fs s.showErrors none parsing).1 = st.index.scanAll fs s.showErrors st.wave ∧
      (st.index.scanWave fs s.showErrors none parsing).2.2.flatMap FileReport.follow
        = (st.index.scanWave fs s.showErrors none st.wave).2.2.flatMap FileReport.follow := by
  have hfilter : (st.wave.filter fun p => (fault p).isNone)
      = st.wave.filter fun p => (st.index.fault? fs s.showErrors p).isNone :=
    List.filter_congr fun p hp => by rw [h.fault_eq p (h.clean p hp)]
  rw [hfilter, ← (Index.scanWave_none fs s.showErrors st.wave st.index).1]
  exact Index.scanWave_filter h.clean

/-- **Scans that are alike are so after one more wave.** -/
theorem Alike.after (h : Alike fs s fault st st') :
    Alike fs s fault (st.after fs s st.wave) (st'.after fs s st'.wave) := by
  obtain ⟨hindex, hfollow⟩ := h.faults.scanWave_filter
  obtain ⟨hindex', hfollow'⟩ := h.faults'.scanWave_filter
  rw [h.index, h.wave] at hindex' hfollow'
  have hsame : st'.index.scanAll fs s.showErrors st'.wave
      = st.index.scanAll fs s.showErrors st.wave := by
    rw [h.index, ← hindex', hindex]
  have hasked : st'.follow fs s = st.follow fs s := by
    rw [follow, follow, h.index, ← hfollow', hfollow]
  refine ⟨h.faults.after, h.faults'.after, ?_, ?_, ?_⟩
  · rw [after_wave h.faults.nodup, after_wave h.faults'.nodup]
    exact hsame
  · rw [after_wave h.faults.nodup, after_wave h.faults'.nodup]
    simp only [hasked, h.index]
    rw [← filter_enqueue fun _ _ => Iff.rfl, ← filter_enqueue h.queued]
  · intro q hq
    rw [after_wave h.faults.nodup, after_wave h.faults'.nodup]
    simp only [hasked, h.index, mem_queued_enqueue, h.queued q hq]

/-- **Scans that are alike end with the same index.** -/
theorem Alike.index_scanWaves (h : Alike fs s fault st st') (limit : Nat) :
    (Index.scanWaves fs s limit st'.queued st'.index none st'.wave).index
      = (Index.scanWaves fs s limit st.queued st.index none st.wave).index := by
  induction limit generalizing st st' with
  | zero => exact h.index
  | succ limit ih =>
      rw [(scanWaves_after fs s h.faults.nodup limit).1,
        (scanWaves_after fs s h.faults'.nodup limit).1]
      exact ih h.after

end ScanState

/-! ## A scan -/

/-- If the errors name their files, they name the failed files in their order. -/
theorem ScanRun.map_path_errors {r : ScanRun}
    (h : ∀ report ∈ r.reports, ∀ e, report.error? = some e → e.path = report.path) :
    r.errors.map ParseError.path = r.failedPaths := by
  rw [errors_eq, failedPaths]
  generalize r.reports = reports at h
  induction reports with
  | nil => rfl
  | cons report rest ih =>
      have hrest := ih fun x hx => h x (List.mem_cons_of_mem _ hx)
      cases herror : report.error? with
      | none =>
          rw [List.filterMap_cons_none herror, List.filter_cons_of_neg (by simp [herror]), hrest]
      | some e =>
          have hpath := h report List.mem_cons_self e herror
          rw [List.filterMap_cons_some herror, List.filter_cons_of_pos (by simp [herror]),
            List.map_cons, List.map_cons, hpath, hrest]

/-- The failure of a scan that is not given up is made of its parse errors. -/
theorem ScanRun.failure?_eq {r : ScanRun} (h : r.patience = none) :
    r.failure? = if r.errors = [] then none else some (.files r.errors false) := by
  have hcanceled : r.canceled = false := by
    rw [canceled, h]
    rfl
  rw [failure?, hcanceled]
  cases r.errors <;> rfl

namespace Index

variable {ix : Index} {fs : FileSystem} {s : Settings}

/-- What the reports of a scan say about failures. -/
theorem faults_scan (hcwd : Path.isAbsolute ix.store.cwd = true) (paths : List Text) :
    (ix.scan fs s none paths).patience = none ∧
      ∀ r ∈ (ix.scan fs s none paths).reports, r.error? = ix.fault? fs s.showErrors r.path :=
  (ScanState.faults_start fs s hcwd paths).scanWaves _

/-- The failed files are those of the row that fail from the start. -/
theorem mem_failedPaths_scan (hcwd : Path.isAbsolute ix.store.cwd = true) {paths : List Text}
    {p : Text} : p ∈ (ix.scan fs s none paths).failedPaths ↔
      p ∈ (ix.scan fs s none paths).reports.map FileReport.path ∧
        (ix.fault? fs s.showErrors p).isSome = true := by
  have hfault : ∀ r ∈ (ix.scan fs s none paths).reports,
      r.error? = ix.fault? fs s.showErrors r.path := (faults_scan hcwd paths).2
  simp only [ScanRun.failedPaths, List.mem_map, List.mem_filter]
  constructor
  · rintro ⟨r, ⟨hr, hsome⟩, rfl⟩
    exact ⟨⟨r, hr, rfl⟩, by rwa [← hfault r hr]⟩
  · rintro ⟨⟨r, hr, rfl⟩, hsome⟩
    exact ⟨r, ⟨hr, by rwa [hfault r hr]⟩, rfl⟩

end Index

/-- **A file that does not parse is passed over.** Take any index, any files, any settings and any
list of paths, and let a scan come to its end. What was known about the files that failed is kept:
the record or its absence, the edges that leave the file, and the digest. The failure has one error
for each of them, in the order of the scan, and nothing else; the errors are those of the scanned
files that can be read, have no record for their content, and do not parse. A scan that is not
given the failed files ends with the same records, graph and digests. -/
theorem scan_isolates {ix : Index} {fs : FileSystem} {s : Settings}
    (hcwd : Path.isAbsolute fs.cwd = true) (hstore : ix.store.cwd = fs.cwd) (paths : List Text) :
    let run := ix.scan fs s none paths
    let failed := run.failedPaths
    (∀ p ∈ failed, run.index.store.get? p = ix.store.get? p ∧
        run.index.graph.dependencies p = ix.graph.dependencies p ∧
        run.index.digests[p]? = ix.digests[p]?) ∧
      failed.Nodup ∧ run.errors.map ParseError.path = failed ∧
      (∀ e, e ∈ run.errors ↔ e.path ∈ run.reports.map FileReport.path ∧
        ∃ content, fs.read e.path = .ok content ∧ ix.current? e.path content.digest = none ∧
          extract e.path content none s.showErrors = .error e) ∧
      run.failure? = (if failed = [] then none else some (.files run.errors false)) ∧
      (ix.scan fs s none (paths.filter fun p => ix.store.key p ∉ failed)).index = run.index := by
  intro run failed
  have hcwd' : Path.isAbsolute ix.store.cwd = true := by rwa [hstore]
  obtain ⟨hrow, hindex⟩ := (Index.scans_scan s hcwd hstore paths).complete
  obtain ⟨hpatience, hfault⟩ : run.patience = none ∧
      ∀ r ∈ run.reports, r.error? = ix.fault? fs s.showErrors r.path :=
    Index.faults_scan hcwd' paths
  have herrors : run.errors.map ParseError.path = failed := by
    refine ScanRun.map_path_errors fun r hr e he => ?_
    rw [hfault r hr] at he
    exact Index.path_of_fault? he
  refine ⟨?_, ?_, herrors, ?_, ?_, ?_⟩
  · intro p hp
    obtain ⟨hmem, hsome⟩ := (Index.mem_failedPaths_scan hcwd').mp hp
    obtain ⟨e, he⟩ := Option.isSome_iff_exists.mp hsome
    obtain ⟨hrecord, hedges, hdigest⟩ := Index.untouched_scanAll
      (fun q hq => hrow.key_eq hcwd' hq) (hrow.key_eq hcwd' hmem) he
    rw [← hindex] at hrecord hedges hdigest
    exact ⟨hrecord, hedges, hdigest⟩
  · exact hrow.nodup.sublist (List.filter_sublist.map FileReport.path)
  · intro e
    rw [ScanRun.errors_eq, List.mem_filterMap, ← Index.fault?_eq_some_iff]
    constructor
    · rintro ⟨r, hr, he⟩
      rw [hfault r hr] at he
      have hpath := Index.path_of_fault? he
      rw [hpath]
      exact ⟨List.mem_map_of_mem hr, he⟩
    · rintro ⟨hmem, he⟩
      obtain ⟨r, hr, hpath⟩ := List.mem_map.mp hmem
      exact ⟨r, hr, by rw [hfault r hr, hpath, he]⟩
  · have hnil : run.errors = [] ↔ failed = [] := by
      rw [← herrors, List.map_eq_nil_iff]
    rw [ScanRun.failure?_eq hpatience]
    simp only [hnil]
  · refine (ScanState.alike_start hcwd' ?_).index_scanWaves _
    intro p _ hp
    have hnot : ix.store.key p ∉ failed := by
      intro hmem
      have hsome := ((Index.mem_failedPaths_scan hcwd').mp hmem).2
      rw [hp] at hsome
      cases hsome
    exact decide_eq_true hnot

/-! ## Two files that do not parse -/

/-- The second file before it was broken. -/
def mendedFiles : FileSystem where
  top := .file (text "b.scss") (.readable (text "$b: 1;")) .empty
  cwd := text "/"

/-- A file that imports three others, two of which do not parse. -/
def brokenFiles : FileSystem where
  top := .file (text "a.scss") (.readable (text "@import 'b'; @import 'c'; @import 'd';"))
    (.file (text "b.scss") (.readable (text "$b: (;"))
      (.file (text "c.scss") (.readable (text "c \x7b"))
        (.file (text "d.scss") (.readable []) .empty)))
  cwd := text "/"

/-- An index that has a record of the second file only. -/
def mendedIndex : Index :=
  ((Index.empty (text "/")).scan mendedFiles strictSettings none [text "/b.scss"]).index

/-- The importing file and the two that do not parse, one of them by a relative path. -/
def brokenPaths : List Text := [text "/a.scss", text "b.scss", text "/c.scss"]

/-- What the scan shows of the two files: that they fail, and whether there was a record before;
and the paths that are left without them. -/
def brokenView : List Text × Bool × Bool × List Text :=
  let failed := (mendedIndex.scan brokenFiles strictSettings none brokenPaths).failedPaths
  (failed, (mendedIndex.store.get? (text "/b.scss")).isSome,
    (mendedIndex.store.get? (text "/c.scss")).isSome,
    brokenPaths.filter fun p => mendedIndex.store.key p ∉ failed)

theorem brokenView_eq :
    brokenView = ([text "/b.scss", text "/c.scss"], true, false, [text "/a.scss"]) := by
  cbv

/-- The file that had a record keeps it, and the other, which the second scan follows from the
importing file, has none in either. -/
theorem scan_isolates_brokenFiles :
    let run := mendedIndex.scan brokenFiles strictSettings none brokenPaths
    Path.isAbsolute brokenFiles.cwd = true ∧ mendedIndex.store.cwd = brokenFiles.cwd ∧
      strictSettings.showErrors = true ∧
      run.failedPaths = [text "/b.scss", text "/c.scss"] ∧
      run.errors.map ParseError.path = [text "/b.scss", text "/c.scss"] ∧
      (run.index.store.get? (text "/b.scss")).isSome = true ∧
      (run.index.store.get? (text "/c.scss")).isSome = false ∧
      (mendedIndex.scan brokenFiles strictSettings none [text "/a.scss"]).index = run.index := by
  intro run
  have hcwd : Path.isAbsolute brokenFiles.cwd = true := by rfl
  have hstore : mendedIndex.store.cwd = brokenFiles.cwd := by
    have hscans : (Index.empty (text "/")).Scans mendedFiles strictSettings [text "/b.scss"] _
        mendedIndex := Index.scans_scan strictSettings (by rfl) (by rfl) [text "/b.scss"]
    rw [hscans.complete.2, Index.cwd_scanAll]
    rfl
  obtain ⟨hkept, -, herrors, -, -, hrest⟩ :=
    scan_isolates (s := strictSettings) hcwd hstore brokenPaths
  have hview := brokenView_eq
  simp only [brokenView, Prod.mk.injEq] at hview
  obtain ⟨hfailed, hb, hc, hpaths⟩ := hview
  rw [hpaths] at hrest
  rw [hfailed] at hkept herrors
  refine ⟨hcwd, hstore, rfl, hfailed, herrors, ?_, ?_, hrest⟩
  · rw [(hkept (text "/b.scss") (by simp)).1, hb]
  · rw [(hkept (text "/c.scss") (by simp)).1, hc]

end StyleIndex
