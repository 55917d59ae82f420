import Mathlib
import StyleIndex.Proofs.Scan.Failure

set_option autoImplicit false

/-! # Scans that are given up

A scan whose caller gives up inside a file stops in front of the next one. `scan_givenUp` says that
it is then the front of the scan that comes to its end: it has scanned the first files of the same
row, knows what the other one knows at that point, and counts and reports these files and no others.

The waves do not matter for this. A scan with any patience takes the files of one row step by step,
and the row is that of the scan that is never given up (`scanWaves_eq_scanWave`): as long as the
patience lasts, each wave is taken whole and asks for the same files, and after that nothing is
scanned, whatever is asked for. So it is enough to cut one row (`scanWave_some`).
-/

namespace StyleIndex

/-! ## What the caller is told -/

namespace ScanEvent

/-- The file that was scanned. -/
def scannedPath? : ScanEvent → Option Text
  | .fileScanned path => some path
  | _ => none

/-- The number of files in the wave that begins. -/
def waveSize? : ScanEvent → Option Nat
  | .waveStarted files => some files
  | _ => none

/-- The number of files at the end. -/
def total? : ScanEvent → Option Nat
  | .completed total => some total
  | _ => none

end ScanEvent

theorem ScanStats.total_foldl_add (outcomes : List FileOutcome) (s : ScanStats) :
    (outcomes.foldl ScanStats.add s).total = s.total + outcomes.length := by
  induction outcomes generalizing s with
  | nil => rfl
  | cons outcome rest ih =>
      have hadd : (s.add outcome).total = s.total + 1 := by
        cases outcome <;> simp only [ScanStats.add, ScanStats.total] <;> omega
      rw [List.foldl_cons, ih, hadd, List.length_cons]
      omega

namespace ScanRun

variable (r : ScanRun)

theorem total_stats : r.stats.total = r.reports.length := by
  rw [stats, ScanStats.total_foldl_add, List.length_map]
  exact Nat.zero_add _

theorem reports_cons (w : ScanWave) :
    ({ r with waves := w :: r.waves } : ScanRun).reports = w.reports ++ r.reports := rfl

/-- What a view shows of the events: of each wave its start and its files, then the end. -/
theorem filterMap_events {α : Type} (view : ScanEvent → Option α) :
    r.events.filterMap view
      = (r.waves.flatMap fun w => (view (.waveStarted w.size)).toList
          ++ w.reports.filterMap fun report => view (.fileScanned report.path))
        ++ (view (.completed r.stats.total)).toList := by
  have hcons : ∀ (e : ScanEvent) (rest : List ScanEvent),
      (e :: rest).filterMap view = (view e).toList ++ rest.filterMap view := by
    intro e rest
    cases h : view e <;> simp [h]
  rw [events, List.filterMap_append, List.filterMap_flatMap, hcons, List.filterMap_nil,
    List.append_nil]
  simp only [hcons, List.filterMap_map, Function.comp_def]

/-- The caller is told of each file that has a report, in the order of the reports. -/
theorem scannedPaths_events :
    r.events.filterMap ScanEvent.scannedPath? = r.reports.map FileReport.path := by
  simp [filterMap_events, ScanEvent.scannedPath?, reports, List.map_flatMap]

theorem waveSizes_events :
    r.events.filterMap ScanEvent.waveSize? = r.waves.map ScanWave.size := by
  simp [filterMap_events, ScanEvent.waveSize?, List.map_eq_flatMap]

/-- The caller is told once that the scan is over. -/
theorem totals_events : r.events.filterMap ScanEvent.total? = [r.reports.length] := by
  simp [filterMap_events, ScanEvent.total?, total_stats]

end ScanRun

/-! ## One row -/

namespace Index

variable (fs : FileSystem) (s : Settings) (strict : Bool)

/-- **A row that is given up after `n` files is cut there.** -/
theorem scanWave_some (row : List Text) (ix : Index) (n : Nat) :
    scanWave fs strict ix (some n) row
      = (ix.scanAll fs strict (row.take n), some (n - row.length),
          (scanWave fs strict ix none row).2.2.take n) := by
  induction row generalizing ix n with
  | nil => simp [scanWave, scanAll]
  | cons path rest ih =>
      cases n with
      | zero => simp [scanWave, Patience.isOver, scanAll]
      | succ n =>
          have hpatience : Patience.isOver (some (n + 1)) = false := rfl
          have hleft : Patience.afterFile (some (n + 1)) = some n := rfl
          rw [scanWave, hpatience, hleft]
          simp only [ih]
          rw [scanWave]
          simp [scanAll, Patience.isOver, Patience.afterFile]

/-- A patience that outlasts a row makes no difference to it. -/
theorem scanWave_of_not_isOver {row : List Text} {ix : Index} {patience : Patience}
    (h : (scanWave fs strict ix patience row).2.1.isOver = false) :
    (scanWave fs strict ix patience row).1 = (scanWave fs strict ix none row).1 ∧
      (scanWave fs strict ix patience row).2.2 = (scanWave fs strict ix none row).2.2 := by
  cases patience with
  | none => exact ⟨rfl, rfl⟩
  | some n =>
      rw [scanWave_some] at h ⊢
      have hlong : row.length < n := by
        by_contra hshort
        rw [show n - row.length = 0 by omega] at h
        cases h
      have hlength : (scanWave fs strict ix none row).2.2.length = row.length := by
        rw [← List.length_map FileReport.path, map_path_scanWave]
      refine ⟨?_, ?_⟩
      · rw [(scanWave_none fs strict row ix).1, List.take_of_length_le (by omega)]
      · exact List.take_of_length_le (by omega)

/-- A row that is not given up is taken whole. -/
theorem exists_scanWave_none (row : List Text) (ix : Index) :
    ∃ jx reports, scanWave fs strict ix none row = (jx, none, reports) ∧
      reports.map FileReport.path = row := by
  refine ⟨_, _, Prod.ext rfl (Prod.ext (scanWave_none fs strict row ix).2 rfl), ?_⟩
  exact map_path_scanWave fs strict row ix

/-- The reports of a row that is not given up, each after the files in front of it. -/
theorem getElem?_scanWave_none (row : List Text) (ix : Index) (k : Nat) :
    (scanWave fs strict ix none row).2.2[k]?
      = row[k]?.map (ix.reportAfter fs strict (row.take k)) := by
  induction row generalizing ix k with
  | nil => simp [scanWave]
  | cons path rest ih =>
      have hreports : (scanWave fs strict ix none (path :: rest)).2.2
          = (ix.scanFile fs strict path).2
            :: (scanWave fs strict (ix.scanFile fs strict path).1 none rest).2.2 := rfl
      cases k with
      | zero => rw [hreports]; rfl
      | succ k =>
          rw [hreports, List.getElem?_cons_succ, List.getElem?_cons_succ, ih]
          rfl

/-- Nothing is scanned when the caller has given up. -/
theorem scanWave_of_isOver {ix : Index} {patience : Patience} (h : patience.isOver = true)
    (row : List Text) : scanWave fs strict ix patience row = (ix, patience, []) := by
  cases row with
  | nil => rfl
  | cons path rest => rw [scanWave, if_pos h]

/-- A row in two parts. -/
theorem scanWave_append (row more : List Text) (ix : Index) (patience : Patience) :
    scanWave fs strict ix patience (row ++ more)
      = ((scanWave fs strict (scanWave fs strict ix patience row).1
            (scanWave fs strict ix patience row).2.1 more).1,
          (scanWave fs strict (scanWave fs strict ix patience row).1
            (scanWave fs strict ix patience row).2.1 more).2.1,
          (scanWave fs strict ix patience row).2.2
            ++ (scanWave fs strict (scanWave fs strict ix patience row).1
              (scanWave fs strict ix patience row).2.1 more).2.2) := by
  induction row generalizing ix patience with
  | nil => rfl
  | cons path rest ih =>
      by_cases hover : patience.isOver = true
      · rw [scanWave_of_isOver fs strict hover, scanWave_of_isOver fs strict hover,
          scanWave_of_isOver fs strict hover, List.append_nil]
      · rw [List.cons_append, scanWave, if_neg hover, scanWave, if_neg hover]
        simp only [ih, List.cons_append]

/-! ## Wave after wave -/

/-- The queue after a wave with the given reports, and the wave to come. -/
def nextWave (ix : Index) (s : Settings) (queued : PathSet) (reports : List FileReport) :
    PathSet × List Text :=
  enqueue ix.store.key queued
    (if s.scanImportedFiles then reports.flatMap FileReport.follow else [])

/-- The first wave, and the scan of the files it asks for. -/
theorem scanWaves_step {ix jx : Index} {patience left : Patience} {wave : List Text}
    {reports : List FileReport} (hwave : wave ≠ []) (hover : patience.isOver = false)
    (htaken : scanWave fs s.showErrors ix patience wave = (jx, left, reports)) (limit : Nat)
    (queued : PathSet) :
    let next := jx.nextWave s queued reports
    let rest := scanWaves fs s limit next.1 jx left next.2
    scanWaves fs s (limit + 1) queued ix patience wave
      = { rest with waves := ⟨wave.length, reports⟩ :: rest.waves } := by
  intro next rest
  rw [scanWaves, if_neg (by simp [hwave, hover])]
  simp only [htaken]
  rfl

theorem scanWaves_of_isOver {ix : Index} {patience : Patience} (h : patience.isOver = true)
    (limit : Nat) (queued : PathSet) (wave : List Text) :
    scanWaves fs s limit queued ix patience wave = ⟨ix, patience, []⟩ := by
  cases limit with
  | zero => rfl
  | succ limit => rw [scanWaves, if_pos (by simp [h])]

theorem scanWaves_nil (ix : Index) (patience : Patience) (limit : Nat) (queued : PathSet) :
    scanWaves fs s limit queued ix patience [] = ⟨ix, patience, []⟩ := by
  cases limit <;> rfl

/-- **A scan takes the files of one row**, the same one whatever its patience. -/
theorem scanWaves_eq_scanWave (limit : Nat) (queued : PathSet) (ix : Index) (patience : Patience)
    (wave : List Text) :
    let row := (scanWaves fs s limit queued ix none wave).reports.map FileReport.path
    let run := scanWaves fs s limit queued ix patience wave
    scanWave fs s.showErrors ix patience row = (run.index, run.patience, run.reports) := by
  induction limit generalizing queued ix patience wave with
  | zero => rfl
  | succ limit ih =>
      intro row run
      by_cases hover : patience.isOver = true
      · simp only [run, scanWaves_of_isOver fs s hover, scanWave_of_isOver fs s.showErrors hover]
        rfl
      by_cases hwave : wave = []
      · subst hwave
        rfl
      rcases htaken : scanWave fs s.showErrors ix patience wave with ⟨jx, left, reports⟩
      obtain ⟨jx', reports', hall, hpaths⟩ := exists_scanWave_none fs s.showErrors wave ix
      have hrun := scanWaves_step fs s hwave (by simpa using hover) htaken limit queued
      have hrow : row = wave ++ (scanWaves fs s limit (jx'.nextWave s queued reports').1 jx' none
          (jx'.nextWave s queued reports').2).reports.map FileReport.path := by
        simp only [row, scanWaves_step fs s hwave rfl hall limit queued]
        rw [ScanRun.reports_cons, List.map_append, hpaths]
      simp only [run, hrun, hrow, scanWave_append, htaken, ScanRun.reports_cons]
      by_cases hleft : left.isOver = true
      · -- given up in this wave: what it asks for is not scanned
        rw [scanWaves_of_isOver fs s hleft, scanWave_of_isOver fs s.showErrors hleft]
        rfl
      · have hlasts : (scanWave fs s.showErrors ix patience wave).2.1.isOver = false := by
          rw [htaken]
          simpa using hleft
        obtain ⟨hindex, hreports⟩ := scanWave_of_not_isOver fs s.showErrors hlasts
        rw [htaken, hall] at hindex hreports
        obtain rfl : jx = jx' := hindex
        obtain rfl : reports = reports' := hreports
        rw [ih]

/-- **No file is scanned twice.** The row holds the files of the first wave, and otherwise files
that were not queued when the wave began. -/
theorem nodup_scanWaves (limit : Nat) (queued : PathSet) (ix : Index) {wave : List Text}
    (hnodup : wave.Nodup) (hqueued : ∀ p ∈ wave, p ∈ queued) :
    let row := (scanWaves fs s limit queued ix none wave).reports.map FileReport.path
    row.Nodup ∧ ∀ p ∈ row, p ∈ wave ∨ p ∉ queued := by
  induction limit generalizing queued ix wave with
  | zero => exact ⟨List.nodup_nil, by simp [scanWaves, ScanRun.reports]⟩
  | succ limit ih =>
      intro row
      by_cases hwave : wave = []
      · simp [row, hwave, scanWaves_nil, ScanRun.reports]
      obtain ⟨jx, reports, hall, hpaths⟩ := exists_scanWave_none fs s.showErrors wave ix
      have hfresh : ∀ p ∈ (jx.nextWave s queued reports).2, p ∉ queued :=
        fun p hp => (mem_enqueue.mp hp).1
      obtain ⟨hrest, hlater⟩ := ih (jx.nextWave s queued reports).1 jx nodup_enqueue
        fun p hp => mem_enqueue_fst.mpr (Or.inr hp)
      -- what comes after this wave was not queued when it began
      have hnew : ∀ p ∈ (scanWaves fs s limit (jx.nextWave s queued reports).1 jx none
          (jx.nextWave s queued reports).2).reports.map FileReport.path, p ∉ queued := by
        intro p hp hold
        rcases hlater p hp with hnext | hnot
        · exact hfresh p hnext hold
        · exact hnot (mem_enqueue_fst.mpr (Or.inl hold))
      simp only [row, scanWaves_step fs s hwave rfl hall limit queued, ScanRun.reports_cons,
        List.map_append, hpaths]
      refine ⟨List.nodup_append.mpr ⟨hnodup, hrest, ?_⟩, ?_⟩
      · rintro p hp _ hp' rfl
        exact hnew p hp' (hqueued p hp)
      · intro p hp
        exact (List.mem_append.mp hp).imp id (hnew p)

/-- Each wave of a scan that is not given up has a report on each of its files. -/
theorem size_of_mem_waves (limit : Nat) (queued : PathSet) (ix : Index) (wave : List Text) :
    ∀ w ∈ (scanWaves fs s limit queued ix none wave).waves, w.size = w.reports.length := by
  induction limit generalizing queued ix wave with
  | zero => simp [scanWaves]
  | succ limit ih =>
      by_cases hwave : wave = []
      · simp [hwave, scanWaves_nil]
      obtain ⟨jx, reports, hall, hpaths⟩ := exists_scanWave_none fs s.showErrors wave ix
      simp only [scanWaves_step fs s hwave rfl hall limit queued]
      intro w hw
      rcases List.mem_cons.mp hw with rfl | hw
      · rw [← hpaths, List.length_map]
      · exact ih _ _ _ w hw

theorem scan_eq_scanWave (ix : Index) (patience : Patience) (paths : List Text) :
    scanWave fs s.showErrors ix patience
        ((ix.scan fs s none paths).reports.map FileReport.path)
      = ((ix.scan fs s patience paths).index, (ix.scan fs s patience paths).patience,
          (ix.scan fs s patience paths).reports) :=
  scanWaves_eq_scanWave fs s _ _ ix patience _

theorem nodup_scan (ix : Index) (paths : List Text) :
    ((ix.scan fs s none paths).reports.map FileReport.path).Nodup :=
  (nodup_scanWaves fs s _ _ ix nodup_enqueue fun _ hp => mem_enqueue_fst.mpr (Or.inr hp)).1

end Index

/-- **A scan that is given up is the front of the scan that is not.** Take any index, files,
settings and paths. The scan that comes to its end tells its caller of a row of files, none of them
twice, and brings them up to date one after the other; its waves hold as many files, and so many are
the total. If the caller gives up inside the `n`-th of these files (or before the scan, for
`n = 0`), it has been told of the first `n` files of the row and of no others. The index is what the
steps of these files leave; the total is `n`, which the caller is told once; and the failure has the
errors of these files, and that the caller gave up. -/
theorem scan_givenUp (ix : Index) (fs : FileSystem) (s : Settings) (paths : List Text) :
    let run := ix.scan fs s none paths
    let row := run.reports.map FileReport.path
    run.events.filterMap ScanEvent.scannedPath? = row ∧ row.Nodup ∧
      (∀ k, run.reports[k]? = row[k]?.map (ix.reportAfter fs s.showErrors (row.take k))) ∧
      run.index = ix.scanAll fs s.showErrors row ∧
      (run.events.filterMap ScanEvent.waveSize?).sum = row.length ∧
      run.stats.total = row.length ∧
      ∀ n : Nat, n ≤ row.length →
        let cut := ix.scan fs s (some n) paths
        cut.events.filterMap ScanEvent.scannedPath? = row.take n ∧
          cut.reports = run.reports.take n ∧
          cut.index = ix.scanAll fs s.showErrors (row.take n) ∧
          cut.stats.total = n ∧ cut.events.filterMap ScanEvent.total? = [n] ∧
          cut.failure?
            = some (.files ((run.reports.take n).filterMap FileReport.error?) true) := by
  intro run row
  have hlength : row.length = run.reports.length := List.length_map _
  have hall : Index.scanWave fs s.showErrors ix none row
      = (run.index, run.patience, run.reports) := Index.scan_eq_scanWave fs s ix none paths
  refine ⟨run.scannedPaths_events, Index.nodup_scan fs s ix paths, ?_, ?_, ?_, ?_, ?_⟩
  · intro k
    rw [← Index.getElem?_scanWave_none, hall]
  · rw [← (Index.scanWave_none fs s.showErrors row ix).1, hall]
  · rw [hlength, run.waveSizes_events, ScanRun.reports, List.length_flatMap]
    exact congrArg List.sum (List.map_congr_left (Index.size_of_mem_waves fs s _ _ ix _))
  · rw [hlength, run.total_stats]
  · intro n hn cut
    have hcut : Index.scanWave fs s.showErrors ix (some n) row
        = (cut.index, cut.patience, cut.reports) := Index.scan_eq_scanWave fs s ix (some n) paths
    simp only [Index.scanWave_some, hall, Prod.mk.injEq] at hcut
    obtain ⟨hindex, hpatience, hreports⟩ := hcut
    have htotal : cut.reports.length = n := by
      rw [← hreports, List.length_take]
      omega
    have hover : cut.canceled = true := by
      rw [ScanRun.canceled, ← hpatience, Nat.sub_eq_zero_of_le hn]
      rfl
    refine ⟨?_, hreports.symm, hindex.symm, ?_, ?_, ?_⟩
    · rw [cut.scannedPaths_events, ← hreports, List.map_take]
    · rw [cut.total_stats, htotal]
    · rw [cut.totals_events, htotal]
    · rw [ScanRun.failure?, hover, ScanRun.errors_eq, ← hreports]
      simp

/-- The row of the scan of the files two of which do not parse, and the failing files among its
first two: the second file of the first wave is one of them. -/
def brokenRow : List Text × List Text :=
  let run := mendedIndex.scan brokenFiles strictSettings none brokenPaths
  (run.reports.map FileReport.path,
    ((run.reports.take 2).filterMap FileReport.error?).map ParseError.path)

theorem brokenRow_eq : brokenRow
    = ([text "/a.scss", text "/b.scss", text "/c.scss", text "/d.scss"], [text "/b.scss"]) := by
  cbv

/-- Given up inside the second of the three files of the first wave. -/
theorem scan_givenUp_brokenFiles :
    let run := mendedIndex.scan brokenFiles strictSettings none brokenPaths
    let cut := mendedIndex.scan brokenFiles strictSettings (some 2) brokenPaths
    2 ≤ (run.reports.map FileReport.path).length ∧
      cut.events.filterMap ScanEvent.scannedPath? = [text "/a.scss", text "/b.scss"] ∧
      cut.index = mendedIndex.scanAll brokenFiles true [text "/a.scss", text "/b.scss"] ∧
      cut.stats.total = 2 ∧ cut.events.filterMap ScanEvent.total? = [2] ∧
      ∃ errors, errors.map ParseError.path = [text "/b.scss"] ∧
        cut.failure? = some (.files errors true) := by
  intro run cut
  have hview := brokenRow_eq
  simp only [brokenRow, Prod.mk.injEq] at hview
  obtain ⟨hrow, herrors⟩ := hview
  have htwo : 2 ≤ (run.reports.map FileReport.path).length := by simp [run, hrow]
  obtain ⟨-, -, -, -, -, -, hgivenUp⟩ :=
    scan_givenUp mendedIndex brokenFiles strictSettings brokenPaths
  obtain ⟨hscanned, -, hindex, htotal, honce, hfailure⟩ := hgivenUp 2 htwo
  simp only [hrow] at hscanned hindex
  exact ⟨htwo, hscanned, hindex, htotal, honce, _, herrors, hfailure⟩

end StyleIndex
