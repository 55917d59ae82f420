import Mathlib
import StyleIndex.Proofs.ImportGraph.Update
import StyleIndex.Proofs.Resolution.Walk
import StyleIndex.Proofs.Scan.Step
import StyleIndex.Workspace

set_option autoImplicit false

/-! # The edges of the import graph after an indexing

A scan links a document to the files its imports refer to at the moment the document is scanned,
while the store is still filling up. `dependencies_reindex` says what this leaves behind: the edges
of a stored document are those of its imports in some store *between* the one before and the one
after the indexing. For an import that is *decided*, every store in between gives the same file, so
the edge is the one that the finished store, and with it the walk over imports, gives.

Where an import is not decided the edge may lead elsewhere: `dependencies_reindex_overtaken` has a
partial that is scanned before the importing file and a plain file that is scanned after it.

A scan is first laid out as a row of single steps (`exists_scan_eq_scanAll`), whatever its waves
are; then everything is an induction over that row.
-/

namespace StyleIndex

/-! ## Files that imports refer to -/

namespace Store

/-- A store on the way from `s₀` to `s₁`: each path has a record or not, as in one of the two. -/
structure Between (s₀ s s₁ : Store) : Prop where
  key : s.key = s₁.key
  isSome : ∀ p, (s.get? p).isSome = (s₀.get? p).isSome ∨ (s.get? p).isSome = (s₁.get? p).isSome

/-- Whether a candidate of an import can be taken for the imported file on the way from `s₀` to
`s₁`. -/
def mayBeTaken (s₀ s₁ : Store) (fs : FileSystem) (c : Text) : Bool :=
  fs.isFile c || (s₀.get? c).isSome || (s₁.get? c).isSome

/-- An import is decided on the way from `s₀` to `s₁` if none of its candidates gains or loses a
record, or if one of them is a file and all that can be taken for the import are that file. -/
def Decided (s₀ s₁ : Store) (fs : FileSystem) (target : Text) : Prop :=
  (∀ c ∈ importCandidates target, (s₀.get? c).isSome = (s₁.get? c).isSome) ∨
    ∃ f ∈ importCandidates target, fs.isFile f = true ∧
      ∀ c ∈ importCandidates target, s₀.mayBeTaken s₁ fs c = true → s₁.key c = s₁.key f

theorem between_right (s₀ s₁ : Store) : Between s₀ s₁ s₁ := ⟨rfl, fun _ => Or.inr rfl⟩

/-- The imported file is a matter of the keys and of which candidates have a record. -/
theorem importedFile_congr {s s' : Store} (fs : FileSystem) {target : Text} (hkey : s.key = s'.key)
    (h : ∀ c ∈ importCandidates target, (s.get? c).isSome = (s'.get? c).isSome) :
    s.importedFile fs target = s'.importedFile fs target := by
  have hfind : (importCandidates target).find? (fun c => (s.get? c).isSome)
      = (importCandidates target).find? (fun c => (s'.get? c).isSome) :=
    List.find?_congr h
  simp only [importedFile, hfind, hkey]

/-- The imported file is a candidate that has a record or exists, if one of them exists. -/
theorem exists_importedFile_path (s : Store) {fs : FileSystem} {target f : Text}
    (hf : f ∈ importCandidates target) (hfile : fs.isFile f = true) :
    ∃ c ∈ importCandidates target, (s.importedFile fs target).path = s.key c ∧
      (fs.isFile c = true ∨ (s.get? c).isSome = true) := by
  simp only [importedFile]
  split
  · next c hc =>
    exact ⟨c, List.mem_of_find?_eq_some hc, rfl, Or.inr (by simpa using List.find?_some hc)⟩
  · split
    · next c hc => exact ⟨c, List.mem_of_find?_eq_some hc, rfl, Or.inl (List.find?_some hc)⟩
    · next hnone => exact absurd hfile (List.find?_eq_none.mp hnone f hf)

/-- **A decided import refers to the same file all the way.** -/
theorem Decided.importedFile_path {s₀ s s₁ : Store} {fs : FileSystem} {target : Text}
    (h : Decided s₀ s₁ fs target) (hs : Between s₀ s s₁) :
    (s.importedFile fs target).path = (s₁.importedFile fs target).path := by
  rcases h with hsame | ⟨f, hf, hfile, hone⟩
  · rw [importedFile_congr fs hs.key]
    intro c hc
    rcases hs.isSome c with hc' | hc'
    · rw [hc', hsame c hc]
    · exact hc'
  · -- whatever candidate is taken, it is the one file there is
    have hpath : ∀ {s : Store}, Between s₀ s s₁ → (s.importedFile fs target).path = s₁.key f := by
      intro s hs
      obtain ⟨c, hc, hpath, htaken⟩ := s.exists_importedFile_path hf hfile
      rw [hpath, hs.key]
      refine hone c hc ?_
      rcases htaken with htaken | htaken
      · simp [mayBeTaken, htaken]
      · rcases hs.isSome c with hc' | hc' <;> simp [mayBeTaken, ← hc', htaken]
    rw [hpath hs, hpath (between_right s₀ s₁)]

/-- The record that the walk over imports finds is that of the imported file. -/
theorem importedFile_of_lookupImport? {s : Store} (fs : FileSystem) {target k : Text}
    {e : Document} (h : s.lookupImport? target = some (k, e)) :
    (s.importedFile fs target).path = k := by
  obtain ⟨⟨before, c, after, hsplit, hbefore, hc⟩, rfl⟩ := lookupImport?_eq_some_iff.mp h
  have hfind : (importCandidates target).find? (fun c => (s.get? c).isSome) = some c := by
    rw [hsplit, List.find?_append]
    have hnone : before.find? (fun c => (s.get? c).isSome) = none := by
      rw [List.find?_eq_none]
      intro b hb
      simp [hbefore b hb]
    simp [hnone, hc]
  simp only [importedFile, hfind, ImportedFile.path, (get?_path hc).1]

/-- The paths of the files that the imports of a record refer to. -/
theorem mem_importedFiles_path {s : Store} {fs : FileSystem} {d : Document} {t : Text} :
    t ∈ (s.importedFiles fs d).map ImportedFile.path
      ↔ ∃ i ∈ d.imports, i.followable = true ∧ t = (s.importedFile fs i.filepath).path := by
  simp only [importedFiles, List.map_map, List.mem_map, List.mem_filter, Function.comp_apply,
    and_assoc, eq_comm]

/-- Every record carries its key as its path. -/
def Normal (s : Store) : Prop := ∀ p d, s.get? p = some d → d.path = s.key p

theorem normal_empty (cwd : Text) : (empty cwd).Normal := by
  intro p d hd
  simp [empty, get?, atKey?] at hd

end Store

/-! ## One step -/

namespace Index

variable {ix : Index} {fs : FileSystem} {strict : Bool} {path : Text}

/-- The index after the files have been brought up to date one after another. -/
def scanAll (ix : Index) (fs : FileSystem) (strict : Bool) (paths : List Text) : Index :=
  paths.foldl (fun ix path => (ix.scanFile fs strict path).1) ix

/-- What a step leaves when the file has a record `d` after it: the record is stored, and the
document linked to the files its imports refer to then. -/
structure Links (fs : FileSystem) (ix ix' : Index) (d : Document) : Prop where
  store : ix'.store = ix.store.insert d
  graph : ix'.graph
    = ix.graph.update d.path ((ix'.store.importedFiles fs d).map ImportedFile.path)

/-- **What a step can do**: drop a file that cannot be read, store a record and link its imports,
or, in strict mode, nothing. -/
theorem scanFile_cases (fs : FileSystem) (strict : Bool) (hnormal : ix.store.Normal)
    (hpath : ix.store.key path = path) :
    (fs.isReadable path = false ∧ (ix.scanFile fs strict path).1 = ix.forget path) ∨
      (fs.isReadable path = true ∧ ∃ d, d.path = path ∧
        Links fs ix (ix.scanFile fs strict path).1 d) ∨
      (fs.isReadable path = true ∧ strict = true ∧ (ix.scanFile fs strict path).1 = ix) := by
  rw [scanFile]
  split
  · next fault hread => exact Or.inl ⟨FileSystem.isReadable_of_read_error hread, rfl⟩
  · next content hread =>
    have hfile := FileSystem.isReadable_of_read_ok hread
    split
    · next d hd =>
      -- a record that is up to date is stored already
      have hget := (of_current? hd).2
      have hdpath : d.path = path := (hnormal path d hget).trans hpath
      refine Or.inr (Or.inl ⟨hfile, d, hdpath, ⟨?_, rfl⟩⟩)
      rw [Store.insert_of_get? (by rw [hdpath]; exact hget)]
      rfl
    · split
      · next e he =>
        cases strict with
        | true => exact Or.inr (Or.inr ⟨hfile, rfl, rfl⟩)
        | false => cases he
      · next d hd => exact Or.inr (Or.inl ⟨hfile, d, path_of_extract hd, ⟨rfl, rfl⟩⟩)

theorem cwd_scanFile (ix : Index) (fs : FileSystem) (strict : Bool) (path : Text) :
    (ix.scanFile fs strict path).1.store.cwd = ix.store.cwd := by
  rw [scanFile]
  split
  · rfl
  · split
    · rfl
    · split <;> rfl

theorem key_scanFile (ix : Index) (fs : FileSystem) (strict : Bool) (path : Text) :
    (ix.scanFile fs strict path).1.store.key = ix.store.key :=
  Store.key_congr (ix.cwd_scanFile fs strict path)

/-- A step keeps every record under its own path. -/
theorem normal_scanFile (hnormal : ix.store.Normal) (hpath : ix.store.key path = path) :
    (ix.scanFile fs strict path).1.store.Normal := by
  intro p e he
  rw [key_scanFile]
  rcases scanFile_cases fs strict hnormal hpath with
    ⟨-, h⟩ | ⟨-, d, hd, h⟩ | ⟨-, -, h⟩
  · rw [h, forget, Store.get?_erase] at he
    split_ifs at he
    exact hnormal p e he
  · rw [h.store, Store.get?_insert] at he
    split_ifs at he with hkey
    · cases he
      rw [← hkey, hd, hpath]
    · exact hnormal p e he
  · rw [h] at he
    exact hnormal p e he

/-- What is known about a file is the same in two indexes: its record, its edges, its digest. -/
structure Untouched (ix ix' : Index) (q : Text) : Prop where
  record : ix'.store.get? q = ix.store.get? q
  dependencies : ix'.graph.dependencies q = ix.graph.dependencies q
  digest : ix'.digests[q]? = ix.digests[q]?

/-- **A step leaves other files alone.** -/
theorem untouched_scanFile (fs : FileSystem) (strict : Bool) (hpath : ix.store.key path = path)
    {q : Text} (hq : ix.store.key q = q) (hne : path ≠ q) :
    Untouched ix (ix.scanFile fs strict path).1 q := by
  have hkeys : ix.store.key path ≠ ix.store.key q := by rwa [hpath, hq]
  have hcompare : compare path q ≠ .eq := fun h => hne (Std.LawfulEqCmp.eq_of_compare h)
  rw [scanFile]
  split
  · refine ⟨?_, ImportGraph.dependencies_remove_of_ne hne.symm, ?_⟩
    · show (ix.store.erase path).get? q = _
      rw [Store.get?_erase, if_neg hkeys]
    · show (ix.digests.erase path)[q]? = _
      rw [Std.ExtTreeMap.getElem?_erase, if_neg hcompare]
  · next content _ =>
    split
    · next d hd =>
      -- the record may carry another path, but one with the same key
      have hget := (of_current? hd).2
      have hqd : q ≠ d.path := by
        rintro rfl
        exact hkeys (Store.get?_path hget).1.symm
      exact ⟨rfl, ImportGraph.dependencies_update_of_ne hqd _, rfl⟩
    · split
      · exact ⟨rfl, rfl, rfl⟩
      · next d hd =>
        have hdpath := path_of_extract hd
        refine ⟨?_, ImportGraph.dependencies_update_of_ne (by rw [hdpath]; exact hne.symm) _, ?_⟩
        · show (ix.store.insert d).get? q = _
          rw [Store.get?_insert, hdpath, if_neg hkeys]
        · show (ix.digests.insert path content.digest)[q]? = _
          rw [Std.ExtTreeMap.getElem?_insert, if_neg hcompare]

/-- In lenient mode a file has a record after the step exactly if it can be read. -/
theorem isSome_get?_scanFile (fs : FileSystem) (hnormal : ix.store.Normal)
    (hpath : ix.store.key path = path) (p : Text) :
    ((ix.scanFile fs false path).1.store.get? p).isSome
      = if ix.store.key p = path then fs.isReadable path else (ix.store.get? p).isSome := by
  rcases scanFile_cases fs false hnormal hpath with
    ⟨hfile, h⟩ | ⟨hfile, d, hd, h⟩ | ⟨-, hstrict, -⟩
  · rw [h, forget, Store.get?_erase, hpath, hfile]
    split_ifs with h₁ h₂ h₂
    · rfl
    · exact absurd h₁.symm h₂
    · exact absurd h₂.symm h₁
    · rfl
  · rw [h.store, Store.get?_insert, hd, hpath, hfile]
    split_ifs with h₁ h₂ h₂
    · rfl
    · exact absurd h₁.symm h₂
    · exact absurd h₂.symm h₁
    · rfl
  · cases hstrict

/-! ## A row of steps -/

theorem scanAll_append (ix : Index) (fs : FileSystem) (strict : Bool) (l l' : List Text) :
    ix.scanAll fs strict (l ++ l') = (ix.scanAll fs strict l).scanAll fs strict l' :=
  List.foldl_append

theorem cwd_scanAll (ix : Index) (fs : FileSystem) (strict : Bool) (l : List Text) :
    (ix.scanAll fs strict l).store.cwd = ix.store.cwd := by
  induction l generalizing ix with
  | nil => rfl
  | cons path l ih =>
      show ((ix.scanFile fs strict path).1.scanAll fs strict l).store.cwd = ix.store.cwd
      rw [ih, cwd_scanFile]

theorem key_scanAll (ix : Index) (fs : FileSystem) (strict : Bool) (l : List Text) :
    (ix.scanAll fs strict l).store.key = ix.store.key :=
  Store.key_congr (ix.cwd_scanAll fs strict l)

theorem normal_scanAll (hnormal : ix.store.Normal) {l : List Text}
    (hl : ∀ p ∈ l, ix.store.key p = p) : (ix.scanAll fs strict l).store.Normal := by
  induction l generalizing ix with
  | nil => exact hnormal
  | cons path l ih =>
      refine ih (normal_scanFile hnormal (hl path List.mem_cons_self)) fun p hp => ?_
      rw [key_scanFile]
      exact hl p (List.mem_cons_of_mem _ hp)

/-- After a lenient row of steps, a file of the row has a record exactly if it can be read, and any
other file if it had one before. -/
theorem isSome_get?_scanAll (fs : FileSystem) (hnormal : ix.store.Normal) {l : List Text}
    (hl : ∀ p ∈ l, ix.store.key p = p) (p : Text) :
    ((ix.scanAll fs false l).store.get? p).isSome
      = if ix.store.key p ∈ l then fs.isReadable (ix.store.key p)
        else (ix.store.get? p).isSome := by
  induction l generalizing ix with
  | nil => rfl
  | cons path l ih =>
      have hpath := hl path List.mem_cons_self
      have hrest : ∀ q ∈ l, (ix.scanFile fs false path).1.store.key q = q := by
        intro q hq
        rw [key_scanFile]
        exact hl q (List.mem_cons_of_mem _ hq)
      have hstep := isSome_get?_scanFile fs hnormal hpath p
      show (((ix.scanFile fs false path).1.scanAll fs false l).store.get? p).isSome = _
      rw [ih (normal_scanFile hnormal hpath) hrest, key_scanFile, hstep]
      by_cases hp : ix.store.key p = path
      · simp [hp]
      · simp [hp]

/-- The stores along a lenient row of steps lie between the first and the last. -/
theorem between_scanAll (hnormal : ix.store.Normal) {l l' : List Text}
    (hl : ∀ p ∈ l ++ l', ix.store.key p = p) :
    Store.Between ix.store (ix.scanAll fs false l).store
      (ix.scanAll fs false (l ++ l')).store := by
  refine ⟨by rw [key_scanAll, key_scanAll], fun p => ?_⟩
  rw [isSome_get?_scanAll fs hnormal fun q hq => hl q (List.mem_append_left _ hq),
    isSome_get?_scanAll fs hnormal hl]
  by_cases hp : ix.store.key p ∈ l
  · right
    rw [if_pos hp, if_pos (List.mem_append_left _ hp)]
  · left
    rw [if_neg hp]

/-- **The edges of a scanned document** are those of its imports in the store that its last step
left. -/
theorem exists_dependencies_scanAll (hnormal : ix.store.Normal) {l : List Text}
    (hl : ∀ p ∈ l, ix.store.key p = p) {q : Text} (hq : q ∈ l) {d : Document}
    (hd : (ix.scanAll fs false l).store.get? q = some d) :
    ∃ before after, l = before ++ after ∧
      ∀ t, t ∈ (ix.scanAll fs false l).graph.dependencies q
        ↔ t ≠ q ∧ t ∈ ((ix.scanAll fs false before).store.importedFiles fs d).map
            ImportedFile.path := by
  -- the last step of the row either is that of `q` or leaves `q` alone
  induction l using List.reverseRecOn with
  | nil => cases hq
  | append_singleton l path ih =>
      have hl' : ∀ p ∈ l, ix.store.key p = p := fun p hp => hl p (List.mem_append_left _ hp)
      have hnormal' : (ix.scanAll fs false l).store.Normal := normal_scanAll hnormal hl'
      have hkey := key_scanAll ix fs false l
      have hpath : (ix.scanAll fs false l).store.key path = path := by
        rw [hkey]
        exact hl path (by simp)
      have hlast : ix.scanAll fs false (l ++ [path])
          = ((ix.scanAll fs false l).scanFile fs false path).1 :=
        scanAll_append ix fs false l [path]
      by_cases hqp : q = path
      · subst hqp
        refine ⟨l ++ [q], [], by simp, ?_⟩
        intro t
        rcases scanFile_cases fs false hnormal' hpath with
          ⟨-, h⟩ | ⟨-, e, he, h⟩ | ⟨-, hstrict, -⟩
        · -- a file that cannot be read has no record
          rw [hlast, h, forget, Store.get?_erase, if_pos rfl] at hd
          cases hd
        · have hde : d = e := by
            rw [hlast, h.store, Store.get?_insert, he, if_pos rfl] at hd
            exact (Option.some.inj hd).symm
          subst hde
          rw [hlast, h.graph, ImportGraph.mem_dependencies_update, he, if_pos rfl, and_comm]
        · cases hstrict
      · have hql : q ∈ l := by simpa [hqp] using hq
        have hq' : (ix.scanAll fs false l).store.key q = q := by
          rw [hkey]
          exact hl' q hql
        obtain ⟨hget, hdeps, -⟩ := untouched_scanFile fs false hpath hq' (Ne.symm hqp)
        rw [hlast, hget] at hd
        obtain ⟨before, after, rfl, hedges⟩ := ih hl' hql hd
        refine ⟨before, after ++ [path], by simp, ?_⟩
        intro t
        rw [hlast, hdeps, hedges]

/-! ## A scan as a row of steps -/

theorem exists_scanWave_eq_scanAll (fs : FileSystem) (strict : Bool) (wave : List Text) :
    ∀ (ix : Index) (patience : Patience), ∃ scanned, scanned ⊆ wave ∧
      (scanWave fs strict ix patience wave).1 = ix.scanAll fs strict scanned ∧
      (patience = none → scanned = wave ∧ (scanWave fs strict ix patience wave).2.1 = none) := by
  induction wave with
  | nil =>
      intro ix patience
      exact ⟨[], fun _ h => h, rfl, fun h => ⟨rfl, h⟩⟩
  | cons path rest ih =>
      intro ix patience
      rw [scanWave]
      split_ifs with hover
      · refine ⟨[], by simp, rfl, ?_⟩
        rintro rfl
        cases hover
      · obtain ⟨scanned, hsub, hindex, hnone⟩ :=
          ih (ix.scanFile fs strict path).1 patience.afterFile
        refine ⟨path :: scanned, List.cons_subset_cons path hsub, hindex, ?_⟩
        rintro rfl
        obtain ⟨rfl, hleft⟩ := hnone rfl
        exact ⟨rfl, hleft⟩

theorem exists_scanWaves_eq_scanAll (fs : FileSystem) (s : Settings) {cwd : Text}
    (hcwd : Path.isAbsolute cwd = true) (limit : Nat) :
    ∀ (queued : PathSet) (ix : Index) (patience : Patience) (wave : List Text),
      ix.store.key = Path.absolute cwd → (∀ p ∈ wave, ix.store.key p = p) →
      ∃ scanned, (scanWaves fs s limit queued ix patience wave).index
          = ix.scanAll fs s.showErrors scanned ∧
        (∀ p ∈ scanned, ix.store.key p = p) ∧
        (patience = none → 0 < limit → wave ⊆ scanned) := by
  induction limit with
  | zero =>
      intro queued ix patience wave _ _
      exact ⟨[], rfl, by simp, by simp⟩
  | succ limit ih =>
      intro queued ix patience wave hkey hwave
      rw [scanWaves]
      by_cases hover : (wave.isEmpty || patience.isOver) = true
      · rw [if_pos hover]
        refine ⟨[], rfl, by simp, ?_⟩
        rintro rfl -
        have hempty : wave = [] := by simpa [Patience.isOver] using hover
        simp [hempty]
      · rw [if_neg hover]
        obtain ⟨first, hsub, hindex, hnone⟩ :=
          exists_scanWave_eq_scanAll fs s.showErrors wave ix patience
        generalize scanWave fs s.showErrors ix patience wave = result at hindex hnone
        obtain ⟨jx, left, reports⟩ := result
        simp only at hindex hnone ⊢
        subst hindex
        have hkey' := (key_scanAll ix fs s.showErrors first).trans hkey
        obtain ⟨more, hmore, hclean, -⟩ := ih
          (enqueue (ix.scanAll fs s.showErrors first).store.key queued
            (if s.scanImportedFiles then reports.flatMap FileReport.follow else [])).1
          (ix.scanAll fs s.showErrors first) left
          (enqueue (ix.scanAll fs s.showErrors first).store.key queued
            (if s.scanImportedFiles then reports.flatMap FileReport.follow else [])).2
          hkey' (by rw [hkey']; exact fun p hp => key_of_mem_enqueue hcwd hp)
        refine ⟨first ++ more, by rw [scanAll_append]; exact hmore, ?_, ?_⟩
        · intro p hp
          rcases List.mem_append.mp hp with hp | hp
          · exact hwave p (hsub hp)
          · rw [← key_scanAll ix fs s.showErrors first]
            exact hclean p hp
        · rintro hpatience -
          rw [← (hnone hpatience).1]
          exact List.subset_append_left first more

/-- **A scan is a row of steps** over clean absolute paths; without a limit to its patience, it
holds all given files. -/
theorem exists_scan_eq_scanAll (ix : Index) (fs : FileSystem) (s : Settings) (patience : Patience)
    (paths : List Text) (hcwd : Path.isAbsolute ix.store.cwd = true) :
    ∃ scanned, (ix.scan fs s patience paths).index = ix.scanAll fs s.showErrors scanned ∧
      (∀ p ∈ scanned, ix.store.key p = p) ∧
      (patience = none → ∀ p ∈ paths, ix.store.key p ∈ scanned) := by
  obtain ⟨scanned, hindex, hclean, hall⟩ := exists_scanWaves_eq_scanAll fs s hcwd
    (fs.top.fileCount + 1) (enqueue ix.store.key ∅ paths).1 ix patience
    (enqueue ix.store.key ∅ paths).2 rfl fun p hp => key_of_mem_enqueue hcwd hp
  refine ⟨scanned, hindex, hclean, ?_⟩
  intro hpatience p hp
  rcases key_mem_enqueue hp ∅ with h | h
  · simp at h
  · exact hall hpatience (Nat.succ_pos _) h

end Index

/-! ## Workspaces -/

/-- The stored records are those that the list of all records holds. -/
theorem Store.path_mem_documents {s : Store} {p : Text} {d : Document} (h : s.get? p = some d) :
    d.path ∈ s.documents.map Document.path := by
  refine List.mem_map_of_mem ?_
  rw [documents, List.mem_mergeSort]
  exact List.mem_map.mpr ⟨(s.key p, d), Std.ExtTreeMap.mem_toList_iff_getElem?_eq_some.mpr h, rfl⟩

namespace Workspace

/-- The workspaces that the operations can produce for a program that works in the directory
`cwd`, whatever the files are at each of them. -/
inductive Reachable (cwd : Text) : Workspace → Prop
  | create {root : Text} {s : Settings} {w : Workspace} :
      Workspace.create cwd root s = .ok w → Reachable cwd w
  | scan {w : Workspace} (fs : FileSystem) (patience : Patience) (paths : List Text) :
      Reachable cwd w → Reachable cwd (w.scan fs patience paths).1
  | reindex {w : Workspace} (fs : FileSystem) (patience : Patience) :
      Reachable cwd w → Reachable cwd (w.reindex fs patience).1
  | setSettings {w w' : Workspace} {s : Settings} :
      Reachable cwd w → w.setSettings s = .ok w' → Reachable cwd w'
  | watch {w w' : Workspace} {fs : FileSystem} :
      Reachable cwd w → w.watch fs = .ok w' → Reachable cwd w'
  | close {w : Workspace} : Reachable cwd w → Reachable cwd w.close

variable {cwd : Text} {w : Workspace}

/-- A workspace whose records carry their keys, for a program that works in `cwd`. -/
structure Normal (cwd : Text) (w : Workspace) : Prop where
  cwd : w.store.cwd = cwd
  store : w.store.Normal

theorem Normal.scan (hcwd : Path.isAbsolute cwd = true) (h : Normal cwd w) (fs : FileSystem)
    (patience : Patience) (paths : List Text) : Normal cwd (w.scan fs patience paths).1 := by
  obtain ⟨scanned, hindex, hclean, -⟩ := w.index.exists_scan_eq_scanAll fs w.settings patience
    paths (by rw [← h.cwd] at hcwd; exact hcwd)
  have hstore : (w.scan fs patience paths).1.store
      = (w.index.scanAll fs w.settings.showErrors scanned).store := by
    rw [← hindex]
    rfl
  constructor
  · rw [hstore, Index.cwd_scanAll]
    exact h.cwd
  · rw [hstore]
    exact Index.normal_scanAll h.store hclean

/-- **No operation stores a record under a path that is not its own.** -/
theorem Reachable.normal (hcwd : Path.isAbsolute cwd = true) (h : Reachable cwd w) :
    Normal cwd w := by
  induction h with
  | create hcreate =>
      unfold Workspace.create at hcreate
      split at hcreate <;> cases hcreate
      exact ⟨rfl, Store.normal_empty cwd⟩
  | scan fs patience paths _ ih => exact ih.scan hcwd fs patience paths
  | @reindex w fs patience _ ih =>
      rw [Workspace.reindex]
      split
      · exact ih
      · exact ih.scan hcwd fs patience _
  | setSettings _ hset ih =>
      unfold Workspace.setSettings at hset
      split at hset <;> cases hset
      exact ⟨ih.cwd, ih.store⟩
  | watch _ hwatch ih =>
      unfold Workspace.watch at hwatch
      split_ifs at hwatch
      · cases hwatch
        exact ih
      · split at hwatch
        · cases hwatch
        · split at hwatch <;> cases hwatch
          exact ⟨ih.cwd, ih.store⟩
  | close _ ih =>
      unfold Workspace.close
      split_ifs
      · exact ih
      · exact ⟨ih.cwd, Store.normal_empty _⟩

variable {w' : Workspace} {fs : FileSystem} {summary : ScanSummary}

/-- A clean indexing is a row of steps that holds every file that had a record. -/
theorem exists_reindex_eq_scanAll (hcwd : Path.isAbsolute cwd = true) (h : Normal cwd w)
    (hrun : w.reindex fs none = (w', summary)) (hok : summary.failure = none) :
    ∃ scanned, w'.index = w.index.scanAll fs w.settings.showErrors scanned ∧
      (∀ p ∈ scanned, w.store.key p = p) ∧
      ∀ p, (w.store.get? p).isSome = true → w.store.key p ∈ scanned := by
  rw [reindex] at hrun
  split at hrun
  · obtain ⟨-, rfl⟩ := Prod.mk.inj hrun
    cases hok
  · next files _ =>
    obtain ⟨scanned, hindex, hclean, hall⟩ := w.index.exists_scan_eq_scanAll fs w.settings none
      (files ++ w.store.documents.map Document.path) (by rw [← h.cwd] at hcwd; exact hcwd)
    obtain ⟨rfl, -⟩ := Prod.mk.inj hrun
    refine ⟨scanned, hindex, hclean, ?_⟩
    intro p hp
    obtain ⟨d, hd⟩ := Option.isSome_iff_exists.mp hp
    rw [← (Store.get?_path hd).1]
    exact hall rfl d.path (List.mem_append_right _ (Store.path_mem_documents hd))

/-- The dependencies of a stored document after a clean lenient indexing are those of its imports
in some store between the old and the new one. -/
theorem exists_between_dependencies (hcwd : Path.isAbsolute cwd = true) (h : Normal cwd w)
    (h' : Normal cwd w') (hlenient : w.settings.showErrors = false)
    (hrun : w.reindex fs none = (w', summary)) (hok : summary.failure = none) {d : Document}
    (hd : w'.store.get? d.path = some d) :
    ∃ s, Store.Between w.store s w'.store ∧ ∀ t, t ∈ w'.dependencies d.path ↔
      t ≠ d.path ∧ ∃ i ∈ d.imports, i.followable = true ∧
        t = (s.importedFile fs i.filepath).path := by
  obtain ⟨scanned, hindex, hclean, hall⟩ := exists_reindex_eq_scanAll hcwd h hrun hok
  rw [hlenient] at hindex
  have hstore : w'.store = (w.index.scanAll fs false scanned).store := congrArg Index.store hindex
  have hdkey : w'.store.key d.path = d.path := (h'.store d.path d hd).symm
  have hdkey₀ : w.index.store.key d.path = d.path := by
    rw [← Index.key_scanAll w.index fs false scanned, ← hstore]
    exact hdkey
  -- a file that was not scanned would have had its record before, and so been scanned
  have hscanned : d.path ∈ scanned := by
    by_contra hnot
    have hsome := w.index.isSome_get?_scanAll fs h.store hclean d.path
    rw [← hstore, hd, hdkey₀, if_neg hnot] at hsome
    exact hnot (hdkey₀ ▸ hall d.path hsome.symm)
  obtain ⟨before, after, rfl, hedges⟩ := Index.exists_dependencies_scanAll h.store hclean hscanned
    (by rw [← hstore]; exact hd)
  refine ⟨(w.index.scanAll fs false before).store, ?_, ?_⟩
  · rw [hstore]
    exact Index.between_scanAll h.store hclean
  · intro t
    rw [← Store.mem_importedFiles_path, ← hedges, dependencies, hdkey, hindex]

end Workspace

/-- **The import graph after an indexing.** Take any workspace that the operations can produce, and
a lenient indexing that is not given up and reports no failure. The dependencies of a stored
document are in strictly increasing order, and they are the files its followable imports refer to
in some store between the old and the new one, the document itself aside. If all its imports are
decided, they are the files the imports refer to in the new store. If an import is decided and the
walk over imports takes it to another document, that document is among the dependencies. -/
theorem dependencies_reindex {cwd : Text} {w w' : Workspace} {fs : FileSystem}
    {summary : ScanSummary} {d : Document} (hcwd : Path.isAbsolute cwd = true)
    (hw : w.Reachable cwd) (hlenient : w.settings.showErrors = false)
    (hrun : w.reindex fs none = (w', summary)) (hok : summary.failure = none)
    (hd : w'.store.get? d.path = some d) :
    (w'.dependencies d.path).Pairwise (· < ·) ∧
      (∃ s, Store.Between w.store s w'.store ∧ ∀ t, t ∈ w'.dependencies d.path ↔
        t ≠ d.path ∧ ∃ i ∈ d.imports, i.followable = true ∧
          t = (s.importedFile fs i.filepath).path) ∧
      ((∀ i ∈ d.imports, i.followable = true → w.store.Decided w'.store fs i.filepath) →
        ∀ t, t ∈ w'.dependencies d.path ↔
          t ≠ d.path ∧ ∃ i ∈ d.imports, i.followable = true ∧
            t = (w'.store.importedFile fs i.filepath).path) ∧
      ∀ i ∈ d.imports, i.followable = true → w.store.Decided w'.store fs i.filepath →
        ∀ k e, w'.store.lookupImport? i.filepath = some (k, e) → e ≠ d →
          e.path ∈ w'.dependencies d.path := by
  have hnormal' : w'.Normal cwd := by
    have h := (hw.reindex fs none).normal hcwd
    rwa [hrun] at h
  obtain ⟨s, hs, hedges⟩ := Workspace.exists_between_dependencies hcwd (hw.normal hcwd) hnormal'
    hlenient hrun hok hd
  refine ⟨ImportGraph.pairwise_dependencies _ _, ⟨s, hs, hedges⟩, ?_, ?_⟩
  · intro hdecided t
    rw [hedges]
    refine and_congr_right fun _ => exists_congr fun i => and_congr_right fun hi =>
      and_congr_right fun hfollow => ?_
    rw [(hdecided i hi hfollow).importedFile_path hs]
  · intro i hi hfollow hdecided k e hlookup hne
    obtain ⟨hleads, hk⟩ := Store.lookupImport?_eq_some_iff.mp hlookup
    have hpath : e.path = (s.importedFile fs i.filepath).path := by
      rw [hdecided.importedFile_path hs, Store.importedFile_of_lookupImport? fs hlookup, hk]
      exact hnormal'.store e.path e hleads.stored
    refine (hedges e.path).mpr ⟨?_, i, hi, hfollow, hpath⟩
    -- two stored documents with one path are the same
    intro heq
    have hstored := hleads.stored
    rw [heq, hd] at hstored
    exact hne (Option.some.inj hstored).symm

/-! ## A partial and a plain file -/

/-- What a run shows of a file and an import: whether the run is clean, the path and the imports of
the record, the candidates that can be taken for the import, the document that the walk over
imports takes it to, and the dependencies of the file. -/
structure ImportView where
  clean : Bool
  record : Option (Text × List Import)
  candidates : List Text
  walksTo : Option (Text × Text)
  dependencies : List Text

/-- The view after a run that starts with a new workspace. -/
def importView (run : Workspace × ScanSummary) (fs : FileSystem) (path target : Text) :
    ImportView where
  clean := run.2.failure.isNone
  record := (run.1.store.get? path).map fun d => (d.path, d.imports)
  candidates := (importCandidates target).filter (emptyWorkspace.store.mayBeTaken run.1.store fs)
  walksTo := (run.1.store.lookupImport? target).map fun found => (found.1, found.2.path)
  dependencies := run.1.dependencies path

/-- The import of `b` in a file of the root directory. -/
def importOfB : Import := ⟨text "/b.scss", false, false, false⟩

/-- A file that imports `b`, and `b` as a partial. -/
def partialFiles : FileSystem where
  top := .file (text "_b.scss") (.readable [])
    (.file (text "a.scss") (.readable (text "@import 'b';")) .empty)
  cwd := text "/"

/-- A file that imports `b`, and `b` as a partial and as a plain file. -/
def overtakenFiles : FileSystem where
  top := .file (text "_b.scss") (.readable [])
    (.file (text "a.scss") (.readable (text "@import 'b';"))
      (.file (text "b.scss") (.readable []) .empty))
  cwd := text "/"

/-- With a partial alone the import is decided. -/
theorem importView_partialFiles :
    importView (emptyWorkspace.reindex partialFiles none) partialFiles (text "/a.scss")
        (text "/b.scss")
      = ⟨true, some (text "/a.scss", [importOfB]), [text "/_b.scss"],
          some (text "/_b.scss", text "/_b.scss"), [text "/_b.scss"]⟩ := by
  cbv

/-- The plain file is tried first, but the partial has its record first. -/
theorem importView_overtakenFiles :
    importView (emptyWorkspace.reindex overtakenFiles none) overtakenFiles (text "/a.scss")
        (text "/b.scss")
      = ⟨true, some (text "/a.scss", [importOfB]), [text "/b.scss", text "/_b.scss"],
          some (text "/b.scss", text "/b.scss"), [text "/_b.scss"]⟩ := by
  cbv

theorem reachable_emptyWorkspace : emptyWorkspace.Reachable (text "/") :=
  .create create_emptyWorkspace

/-- What a view says about the run, when the import is taken to another document. -/
theorem exists_of_importView {run : Workspace × ScanSummary} {fs : FileSystem}
    {path target found : Text} {imports : List Import} {candidates dependencies : List Text}
    (h : importView run fs path target
      = ⟨true, some (path, imports), candidates, some (found, found), dependencies⟩)
    (hfound : found ≠ path) :
    run.2.failure = none ∧
      (∀ c ∈ importCandidates target,
        emptyWorkspace.store.mayBeTaken run.1.store fs c = true → c ∈ candidates) ∧
      ∃ d e, run.1.store.get? d.path = some d ∧ d.imports = imports ∧
        run.1.dependencies d.path = dependencies ∧
        run.1.store.lookupImport? target = some (e.path, e) ∧ e.path = found ∧ e ≠ d := by
  obtain ⟨hclean, hrecord, hcandidates, hwalk, hdependencies⟩ := ImportView.mk.inj h
  obtain ⟨d, hd, hdrecord⟩ := Option.map_eq_some_iff.mp hrecord
  obtain ⟨⟨k, e⟩, he, hwalk⟩ := Option.map_eq_some_iff.mp hwalk
  obtain ⟨rfl, himports⟩ := Prod.mk.inj hdrecord
  obtain ⟨hk, hepath⟩ := Prod.mk.inj hwalk
  simp only at hk hepath
  subst hk hepath
  refine ⟨Option.isNone_iff_eq_none.mp hclean, ?_, d, e, hd, himports, hdependencies, he, rfl, ?_⟩
  · intro c hc htaken
    rw [← hcandidates]
    exact List.mem_filter.mpr ⟨hc, htaken⟩
  · rintro rfl
    exact hfound rfl

theorem dependencies_reindex_partialFiles :
    ∃ w' summary d e, emptyWorkspace.reindex partialFiles none = (w', summary) ∧
      summary.failure = none ∧ w'.store.get? d.path = some d ∧ d.imports = [importOfB] ∧
      emptyWorkspace.store.Decided w'.store partialFiles importOfB.filepath ∧
      w'.store.lookupImport? importOfB.filepath = some (e.path, e) ∧ e ≠ d ∧
      e.path ∈ w'.dependencies d.path := by
  obtain ⟨hclean, hone, d, e, hd, himports, -, he, -, hne⟩ :=
    exists_of_importView importView_partialFiles (by decide)
  generalize hrun : emptyWorkspace.reindex partialFiles none = run at *
  obtain ⟨w', summary⟩ := run
  have hdecided : emptyWorkspace.store.Decided w'.store partialFiles importOfB.filepath := by
    refine Or.inr ⟨text "/_b.scss", by decide +kernel, by decide +kernel, ?_⟩
    intro c hc htaken
    rw [List.mem_singleton.mp (hone c hc htaken)]
  obtain ⟨-, -, -, hwalk⟩ := dependencies_reindex (by rfl) reachable_emptyWorkspace (by rfl) hrun
    hclean hd
  have himport : importOfB ∈ d.imports := by
    rw [himports]
    exact List.mem_singleton_self importOfB
  exact ⟨w', summary, d, e, rfl, hclean, hd, himports, hdecided, he, hne,
    hwalk importOfB himport (by rfl) hdecided e.path e he hne⟩

/-- **The graph can miss a file that the walk over imports visits.** The importing file is scanned
after the partial and before the plain file. Its edge goes to the partial, which has a record by
then; in the finished store the plain file comes first. -/
theorem dependencies_reindex_overtaken :
    ∃ w' summary d e, emptyWorkspace.Reachable (text "/") ∧
      emptyWorkspace.settings.showErrors = false ∧
      emptyWorkspace.reindex overtakenFiles none = (w', summary) ∧ summary.failure = none ∧
      w'.store.get? d.path = some d ∧ d.imports = [importOfB] ∧ importOfB.followable = true ∧
      w'.store.lookupImport? importOfB.filepath = some (e.path, e) ∧ e ≠ d ∧
      (w'.store.importedFile overtakenFiles importOfB.filepath).path = e.path ∧
      e.path = text "/b.scss" ∧ w'.dependencies d.path = [text "/_b.scss"] := by
  obtain ⟨hclean, -, d, e, hd, himports, hdependencies, he, hepath, hne⟩ :=
    exists_of_importView importView_overtakenFiles (by decide)
  generalize emptyWorkspace.reindex overtakenFiles none = run at *
  obtain ⟨w', summary⟩ := run
  exact ⟨w', summary, d, e, reachable_emptyWorkspace, rfl, rfl, hclean, hd, himports, rfl, he, hne,
    Store.importedFile_of_lookupImport? _ he, hepath, hdependencies⟩

end StyleIndex
