import Mathlib.Tactic
import StyleIndex.Proofs.Scan.Schedule

set_option autoImplicit false

/-! # The records of a lenient scan

What a lenient scan leaves for each path. A step reads and changes the record and the digest of
its own file only, and a complete row holds each file once. So the record of a file after the scan
is a matter of the file system and of the index before the scan (`CompleteRow.get?_scanAll`),
whatever the schedule; what the schedule decides is which imported files are followed.

`Index.storeAt` is the store at the moment when a file of the row looks up its imports.
`CompleteRow.mem_of_onDisk` says that a file found at that moment is in the row, and
`CompleteRow.origin` that every file of the row was given or found like this.
-/

namespace StyleIndex

namespace Index

variable {ix : Index} {fs : FileSystem} {path q : Text}

/-- The record that a lenient step leaves for a file: none for a file that cannot be read, the
present one if its digest is that of the content, and else the extract of the content. -/
def refreshed? (ix : Index) (fs : FileSystem) (path : Text) : Option Document :=
  match fs.read path with
  | .error _ => none
  | .ok content => some ((ix.current? path content.digest).getD (extractLenient path content none))

theorem isSome_refreshed? (ix : Index) (fs : FileSystem) (path : Text) :
    (ix.refreshed? fs path).isSome = fs.isReadable path := by
  rw [refreshed?]
  cases hread : fs.read path with
  | error fault => rw [FileSystem.isReadable_of_read_error hread]; rfl
  | ok content => rw [FileSystem.isReadable_of_read_ok hread]; rfl

theorem refreshed?_eq_none (h : fs.isReadable path = false) : ix.refreshed? fs path = none := by
  rw [← Option.not_isSome_iff_eq_none, isSome_refreshed?, h]
  exact Bool.false_ne_true

/-! ## One step -/

/-- A lenient step changes the record of its own file only. -/
theorem get?_scanFile (hpath : ix.store.key path = path) (fs : FileSystem) (q : Text) :
    (ix.scanFile fs false path).1.store.get? q
      = if ix.store.key q = path then ix.refreshed? fs path else ix.store.get? q := by
  have hsame : ix.store.key q = path → ix.store.get? q = ix.store.get? path := by
    intro h
    rw [Store.get?, Store.get?, h, hpath]
  rw [scanFile, refreshed?]
  cases hread : fs.read path with
  | error fault =>
      simp only [forget, Store.get?_erase, hpath]
      by_cases h : ix.store.key q = path
      · rw [if_pos h, if_pos h.symm]
      · rw [if_neg h, if_neg (Ne.symm h)]
  | ok content =>
      simp only
      cases hcurrent : ix.current? path content.digest with
      | some d =>
          have hd := (of_current? hcurrent).2
          show ix.store.get? q = _
          by_cases h : ix.store.key q = path
          · rw [if_pos h, hsame h, hd]
            rfl
          · rw [if_neg h]
      | none =>
          have hextract : extract path content none false
              = .ok (extractLenient path content none) := rfl
          have hd := path_of_extract hextract
          show (ix.store.insert (extractLenient path content none)).get? q = _
          rw [Store.get?_insert, hd, hpath]
          by_cases h : ix.store.key q = path
          · rw [if_pos h, if_pos h.symm]
            rfl
          · rw [if_neg h, if_neg (Ne.symm h)]

/-- A lenient step leaves the digest of the content beside the record. -/
theorem digests_scanFile (ix : Index) (fs : FileSystem) (path q : Text) :
    (ix.scanFile fs false path).1.digests[q]?
      = if q = path then (fs.read path).toOption.map Text.digest else ix.digests[q]? := by
  rw [scanFile]
  cases hread : fs.read path with
  | error fault =>
      show (ix.digests.erase path)[q]? = _
      simp only [Std.ExtTreeMap.getElem?_erase, Std.LawfulEqCmp.compare_eq_iff_eq]
      by_cases h : q = path
      · rw [if_pos h, if_pos h.symm]
        rfl
      · rw [if_neg h, if_neg (Ne.symm h)]
  | ok content =>
      simp only
      cases hcurrent : ix.current? path content.digest with
      | some d =>
          have hdigest := (of_current? hcurrent).1
          show ix.digests[q]? = _
          by_cases h : q = path
          · rw [if_pos h, h, hdigest]
            rfl
          · rw [if_neg h]
      | none =>
          show (ix.digests.insert path content.digest)[q]? = _
          simp only [Std.ExtTreeMap.getElem?_insert, Std.LawfulEqCmp.compare_eq_iff_eq]
          by_cases h : q = path
          · rw [if_pos h, if_pos h.symm]
            rfl
          · rw [if_neg h, if_neg (Ne.symm h)]

/-- A lenient step follows the imports of the record it leaves. -/
theorem mem_follow_scanFile {f : Text} : f ∈ (ix.scanFile fs false path).2.follow ↔
    ∃ d, ix.refreshed? fs path = some d ∧ ∃ i ∈ d.imports, i.followable = true ∧
      (ix.scanFile fs false path).1.store.importedFile fs i.filepath = .onDisk f := by
  rw [scanFile, refreshed?]
  cases hread : fs.read path with
  | error fault => simp
  | ok content =>
      simp only [Option.some.injEq, exists_eq_left']
      cases hcurrent : ix.current? path content.digest with
      | some d => exact mem_unscannedImports
      | none => exact mem_unscannedImports

/-- The step of one file does not change what that of another will leave. -/
theorem refreshed?_scanFile (hpath : ix.store.key path = path) (hq : ix.store.key q = q)
    (hne : q ≠ path) : (ix.scanFile fs false path).1.refreshed? fs q = ix.refreshed? fs q := by
  have hcurrent : ∀ digest, (ix.scanFile fs false path).1.current? q digest
      = ix.current? q digest := by
    intro digest
    rw [current?, current?, digests_scanFile, if_neg hne, get?_scanFile hpath, hq, if_neg hne]
  simp only [refreshed?, hcurrent]

/-! ## A row of steps -/

variable {row : List Text}

theorem refreshed?_scanAll (hrow : ∀ p ∈ row, ix.store.key p = p) (hq : ix.store.key q = q)
    (hnot : q ∉ row) : (ix.scanAll fs false row).refreshed? fs q = ix.refreshed? fs q := by
  induction row generalizing ix with
  | nil => rfl
  | cons path row ih =>
      rw [List.mem_cons, not_or] at hnot
      have hkey := ix.key_scanFile fs false path
      have hpath := hrow path List.mem_cons_self
      show ((ix.scanFile fs false path).1.scanAll fs false row).refreshed? fs q = _
      rw [ih (by rw [hkey]; exact fun p hp => hrow p (List.mem_cons_of_mem _ hp))
        (by rw [hkey]; exact hq) hnot.2, refreshed?_scanFile hpath hq hnot.1]

/-- **The records after a lenient row of steps**, each file being brought up to date once. -/
theorem get?_scanAll (hrow : ∀ p ∈ row, ix.store.key p = p) (hnodup : row.Nodup) (q : Text) :
    (ix.scanAll fs false row).store.get? q
      = if ix.store.key q ∈ row then ix.refreshed? fs (ix.store.key q) else ix.store.get? q := by
  induction row generalizing ix with
  | nil => rfl
  | cons path row ih =>
      obtain ⟨hnot, hnodup⟩ := List.nodup_cons.mp hnodup
      have hkey := ix.key_scanFile fs false path
      have hpath := hrow path List.mem_cons_self
      have hrest : ∀ p ∈ row, ix.store.key p = p := fun p hp => hrow p (List.mem_cons_of_mem _ hp)
      show ((ix.scanFile fs false path).1.scanAll fs false row).store.get? q = _
      rw [ih (by rw [hkey]; exact hrest) hnodup, hkey]
      by_cases hmem : ix.store.key q ∈ row
      · have hne : ix.store.key q ≠ path := fun h => hnot (h ▸ hmem)
        rw [if_pos hmem, if_pos (List.mem_cons_of_mem _ hmem),
          refreshed?_scanFile hpath (hrest _ hmem) hne]
      · rw [if_neg hmem, get?_scanFile hpath]
        by_cases hq : ix.store.key q = path
        · rw [if_pos hq, if_pos (by rw [hq]; exact List.mem_cons_self), hq]
        · rw [if_neg hq, if_neg (by simp [hq, hmem])]

/-- The digests after a lenient row of steps. -/
theorem digests_scanAll (ix : Index) (fs : FileSystem) (row : List Text) (q : Text) :
    (ix.scanAll fs false row).digests[q]?
      = if q ∈ row then (fs.read q).toOption.map Text.digest else ix.digests[q]? := by
  induction row generalizing ix with
  | nil => rfl
  | cons path row ih =>
      show ((ix.scanFile fs false path).1.scanAll fs false row).digests[q]? = _
      rw [ih, digests_scanFile]
      by_cases hmem : q ∈ row
      · rw [if_pos hmem, if_pos (List.mem_cons_of_mem _ hmem)]
      · by_cases hq : q = path
        · rw [if_neg hmem, if_pos hq, if_pos (by rw [hq]; exact List.mem_cons_self), hq]
        · rw [if_neg hmem, if_neg hq, if_neg (by simp [hq, hmem])]

/-! ## Complete rows -/

/-- The store at the moment when a file looks up its imports, after the files `before`. -/
def storeAt (ix : Index) (fs : FileSystem) (before : List Text) (path : Text) : Store :=
  (ix.scanAll fs false (before ++ [path])).store

theorem key_storeAt (ix : Index) (fs : FileSystem) (before : List Text) (p : Text) :
    (ix.storeAt fs before p).key = ix.store.key :=
  ix.key_scanAll fs false (before ++ [p])

variable {s : Settings} {paths : List Text}

namespace CompleteRow

/-- A file of the row with what stands in front of it and behind it. -/
theorem exists_split (h : ix.CompleteRow fs s paths row) {p : Text} (hp : p ∈ row) :
    ∃ before after, row = before ++ p :: after ∧ p ∉ before := by
  obtain ⟨before, after, rfl⟩ := List.append_of_mem hp
  refine ⟨before, after, rfl, ?_⟩
  have hdisjoint := (List.nodup_append.mp h.nodup).2.2
  exact fun hmem => hdisjoint p hmem p List.mem_cons_self rfl

theorem key_eq (h : ix.CompleteRow fs s paths row) (hcwd : Path.isAbsolute ix.store.cwd = true)
    {p : Text} (hp : p ∈ row) : ix.store.key p = p := by
  obtain ⟨before, after, hsplit, -⟩ := h.exists_split hp
  exact (h.grounded before p after hsplit).key_eq hcwd

theorem key_mem (h : ix.CompleteRow fs s paths row) {p : Text} (hp : p ∈ paths) :
    ix.store.key p ∈ row :=
  h.mem_of_asked _ (Or.inl ⟨p, hp, rfl⟩)

/-- The records after the scan. -/
theorem get?_scanAll (h : ix.CompleteRow fs s paths row)
    (hcwd : Path.isAbsolute ix.store.cwd = true) (q : Text) :
    (ix.scanAll fs false row).store.get? q
      = if ix.store.key q ∈ row then ix.refreshed? fs (ix.store.key q) else ix.store.get? q :=
  Index.get?_scanAll (fun _ hp => h.key_eq hcwd hp) h.nodup q

theorem get?_of_mem (h : ix.CompleteRow fs s paths row)
    (hcwd : Path.isAbsolute ix.store.cwd = true) {p : Text} (hp : p ∈ row) :
    (ix.scanAll fs false row).store.get? p = ix.refreshed? fs p := by
  rw [h.get?_scanAll hcwd, h.key_eq hcwd hp, if_pos hp]

variable {before after : List Text} {p : Text}

/-- The files up to a file of the row are files of the row. -/
theorem front_subset (hsplit : row = before ++ p :: after) : before ++ [p] ⊆ row := by
  rw [hsplit]
  simp

/-- What the store holds at the moment when a file looks up its imports. -/
theorem get?_storeAt (h : ix.CompleteRow fs s paths row)
    (hcwd : Path.isAbsolute ix.store.cwd = true) (hsplit : row = before ++ p :: after) (q : Text) :
    (ix.storeAt fs before p).get? q
      = if ix.store.key q ∈ before ++ [p] then ix.refreshed? fs (ix.store.key q)
        else ix.store.get? q := by
  have hnodup : (before ++ [p]).Nodup := by
    have hrow := h.nodup
    rw [hsplit, List.append_cons] at hrow
    exact (List.nodup_append.mp hrow).1
  exact Index.get?_scanAll (fun r hr => h.key_eq hcwd (front_subset hsplit hr)) hnodup q

/-- The report on a file follows what its imports refer to at that moment. -/
theorem mem_follow (h : ix.CompleteRow fs s paths row)
    (hcwd : Path.isAbsolute ix.store.cwd = true) (hsplit : row = before ++ p :: after) {f : Text} :
    f ∈ (ix.reportAfter fs false before p).follow ↔ ∃ d, ix.refreshed? fs p = some d ∧
      ∃ i ∈ d.imports, i.followable = true ∧
        (ix.storeAt fs before p).importedFile fs i.filepath = .onDisk f := by
  have hmem := front_subset hsplit
  have hkey : ∀ r ∈ before, ix.store.key r = r := fun r hr =>
    h.key_eq hcwd (hmem (List.mem_append_left _ hr))
  have hnot : p ∉ before := by
    have hrow := h.nodup
    rw [hsplit] at hrow
    exact fun hp => (List.nodup_append.mp hrow).2.2 p hp p List.mem_cons_self rfl
  have hstore : ((ix.scanAll fs false before).scanFile fs false p).1.store
      = ix.storeAt fs before p := by
    rw [storeAt, scanAll_append]
    rfl
  rw [reportAfter, mem_follow_scanFile, hstore,
    refreshed?_scanAll hkey (h.key_eq hcwd (hmem (by simp))) hnot]

end CompleteRow

end Index

/-- A document is listed if it is the record of its path. -/
theorem Store.mem_documents_iff {s : Store} {d : Document} :
    d ∈ s.documents ↔ s.get? d.path = some d := by
  rw [documents, List.mem_mergeSort, List.mem_map]
  constructor
  · rintro ⟨⟨k, e⟩, hmem, rfl⟩
    have hk : s.records[k]? = some e := Std.ExtTreeMap.mem_toList_iff_getElem?_eq_some.mp hmem
    rw [get?, key, s.keyed k e hk]
    exact hk
  · intro hd
    exact ⟨(s.key d.path, d), Std.ExtTreeMap.mem_toList_iff_getElem?_eq_some.mpr hd, rfl⟩

/-- The file to follow is the first candidate that is a regular file, if none of them has a
record. -/
theorem Store.importedFile_eq_onDisk_iff {s : Store} {fs : FileSystem} {target f : Text} :
    s.importedFile fs target = .onDisk f ↔
      (∀ c ∈ importCandidates target, s.get? c = none) ∧
        ∃ c, (importCandidates target).find? fs.isFile = some c ∧ s.key c = f := by
  have hnone : (importCandidates target).find? (fun c => (s.get? c).isSome) = none ↔
      ∀ c ∈ importCandidates target, s.get? c = none := by
    simp
  simp only [importedFile]
  split
  · next c hc =>
    have hsome : ¬∀ c ∈ importCandidates target, s.get? c = none := by
      rw [← hnone, hc]
      simp
    constructor
    · intro h
      cases h
    · rintro ⟨hall, -⟩
      exact absurd hall hsome
  · next hc =>
    have hall := hnone.mp hc
    split
    · next c hfile =>
      rw [hfile, and_iff_right hall]
      simp
    · next hfile => simp [hfile]

/-- A file to follow has no record yet. -/
theorem Store.atKey?_of_onDisk {s : Store} {fs : FileSystem} {target f : Text}
    (h : s.importedFile fs target = .onDisk f) : s.atKey? f = none := by
  obtain ⟨hnone, c, hfind, rfl⟩ := importedFile_eq_onDisk_iff.mp h
  exact hnone c (List.mem_of_find?_eq_some hfind)

namespace Index

variable {ix : Index} {fs : FileSystem} {s : Settings} {paths row : List Text} {p : Text}
  {d : Document} {i : Import}

/-- A file to follow is named by its key. -/
theorem key_of_onDisk (hcwd : Path.isAbsolute ix.store.cwd = true) {before : List Text}
    {target f : Text} (h : (ix.storeAt fs before p).importedFile fs target = .onDisk f) :
    ix.store.key f = f := by
  obtain ⟨-, c, -, rfl⟩ := Store.importedFile_eq_onDisk_iff.mp h
  rw [key_storeAt]
  exact Path.absolute_absolute hcwd c

namespace CompleteRow

/-- What the store holds under a key at the moment when a file looks up its imports. -/
theorem atKey?_storeAt (h : ix.CompleteRow fs s paths row)
    (hcwd : Path.isAbsolute ix.store.cwd = true) {before after : List Text}
    (hsplit : row = before ++ p :: after) {q : Text} (hq : ix.store.key q = q) :
    (ix.storeAt fs before p).atKey? q
      = if q ∈ before ++ [p] then ix.refreshed? fs q else ix.store.get? q := by
  have hget := h.get?_storeAt hcwd hsplit q
  rwa [Store.get?, key_storeAt, hq] at hget

/-- A file that the import of a scanned file refers to, and that has no record then, is scanned. -/
theorem mem_of_onDisk (h : ix.CompleteRow fs s paths row)
    (hcwd : Path.isAbsolute ix.store.cwd = true) (hlenient : s.showErrors = false)
    (hfollow : s.scanImportedFiles = true) {before after : List Text}
    (hsplit : row = before ++ p :: after) (hd : ix.refreshed? fs p = some d) (hi : i ∈ d.imports)
    (hfollowable : i.followable = true) {f : Text}
    (hf : (ix.storeAt fs before p).importedFile fs i.filepath = .onDisk f) : f ∈ row := by
  have hkey := key_of_onDisk hcwd hf
  refine h.mem_of_asked f (Or.inr ⟨hfollow, before, p, after, hsplit, f, ?_, hkey⟩)
  rw [hlenient]
  exact (h.mem_follow hcwd hsplit).mpr ⟨d, hd, i, hi, hfollowable, hf⟩

/-- **Where the files of a scan come from**: each was given, or it is what an import of a file in
front of it refers to. -/
theorem origin (h : ix.CompleteRow fs s paths row) (hcwd : Path.isAbsolute ix.store.cwd = true)
    (hlenient : s.showErrors = false) {before after : List Text} {q : Text}
    (hsplit : row = before ++ q :: after) :
    (∃ r ∈ paths, ix.store.key r = q) ∨
      (s.scanImportedFiles = true ∧ ∃ front p back d i, before = front ++ p :: back ∧
        ix.refreshed? fs p = some d ∧ i ∈ d.imports ∧ i.followable = true ∧
        (ix.storeAt fs front p).importedFile fs i.filepath = .onDisk q) := by
  rcases h.grounded before q after hsplit with
    hgiven | ⟨hfollow, front, p, back, hfront, f, hf, rfl⟩
  · exact Or.inl hgiven
  · have hrow : row = front ++ p :: (back ++ ix.store.key f :: after) := by
      rw [hsplit, hfront]
      simp
    rw [hlenient] at hf
    obtain ⟨d, hd, i, hi, hfollowable, himported⟩ := (h.mem_follow hcwd hrow).mp hf
    have hkey := key_of_onDisk hcwd himported
    refine Or.inr ⟨hfollow, front, p, back, d, i, hfront, hd, hi, hfollowable, ?_⟩
    rw [himported, hkey]

/-- A file that had its record from the start is not followed. -/
theorem given_of_stored (h : ix.CompleteRow fs s paths row)
    (hcwd : Path.isAbsolute ix.store.cwd = true) (hlenient : s.showErrors = false) {q : Text}
    (hq : ix.store.key q ∈ row) (hstored : (ix.store.get? q).isSome = true) :
    ∃ r ∈ paths, ix.store.key r = ix.store.key q := by
  obtain ⟨before, after, hsplit, hnot⟩ := h.exists_split hq
  rcases h.origin hcwd hlenient hsplit with
    hgiven | ⟨-, front, p, back, d, i, hfront, -, -, -, himported⟩
  · exact hgiven
  · have hsplit' : row = front ++ p :: (back ++ ix.store.key q :: after) := by
      rw [hsplit, hfront]
      simp
    have hkey : ix.store.key (ix.store.key q) = ix.store.key q := Path.absolute_absolute hcwd q
    have hnone := Store.atKey?_of_onDisk himported
    rw [h.atKey?_storeAt hcwd hsplit' hkey, if_neg fun hmem => hnot (front_subset hfront hmem),
      Store.get?, hkey] at hnone
    rw [Store.get?, hnone] at hstored
    cases hstored

end CompleteRow

end Index

end StyleIndex
