import Mathlib.Tactic
import StyleIndex.Index.Scan
import StyleIndex.Proofs.Path.Normal
import StyleIndex.Proofs.Symbol.Record
import StyleIndex.Workspace

set_option autoImplicit false

/-! # One file of a scan

What the smallest step of a scan does to the store. The step is given a clean absolute path, as the
queue of a scan holds no others (`key_of_mem_enqueue`), so the path is its own key and the step
reads, stores or drops the record of that path and no other.
-/

namespace StyleIndex

/-! ## The store -/

namespace Store

theorem key_congr {s s' : Store} (h : s.cwd = s'.cwd) : s.key = s'.key := by
  unfold key
  rw [h]

theorem get?_insert (s : Store) (d : Document) (path : Text) :
    (s.insert d).get? path = if s.key d.path = s.key path then some d else s.get? path := by
  show (s.records.insert (s.key d.path) d)[s.key path]? = _
  rw [Std.ExtTreeMap.getElem?_insert]
  simp only [Std.LawfulEqCmp.compare_eq_iff_eq]
  rfl

theorem get?_erase (s : Store) (p path : Text) :
    (s.erase p).get? path = if s.key p = s.key path then none else s.get? path := by
  show (s.records.erase (s.key p))[s.key path]? = _
  rw [Std.ExtTreeMap.getElem?_erase]
  simp only [Std.LawfulEqCmp.compare_eq_iff_eq]
  rfl

/-- Storing a record that is stored already changes nothing. -/
theorem insert_of_get? {s : Store} {d : Document} (h : s.get? d.path = some d) :
    s.insert d = s := by
  obtain ⟨cwd, records, keyed⟩ := s
  have hrecords : records.insert (Path.absolute cwd d.path) d = records := by
    refine Std.ExtTreeMap.ext_getElem? fun k => ?_
    rw [Std.ExtTreeMap.getElem?_insert]
    split_ifs with hk
    · rw [← Std.LawfulEqCmp.eq_of_compare hk]
      exact h.symm
    · rfl
  simp only [insert, key]
  congr

end Store

/-! ## Files -/

namespace FileSystem

variable {fs : FileSystem} {path : Text}

theorem isReadable_of_read_ok {content : Text} (h : fs.read path = .ok content) :
    fs.isReadable path = true := by
  rw [isReadable, h]

theorem isReadable_of_read_error {fault : FileFault} (h : fs.read path = .error fault) :
    fs.isReadable path = false := by
  rw [isReadable, h]

theorem isReadable_iff : fs.isReadable path = true ↔ ∃ content, fs.read path = .ok content := by
  rw [isReadable]
  cases fs.read path <;> simp

end FileSystem

/-! ## Records -/

/-- A record carries the path it was extracted for. -/
theorem path_of_extract {path t : Text} {scope : Option Int} {strict : Bool} {d : Document}
    (h : extract path t scope strict = .ok d) : d.path = path := by
  obtain ⟨nodes, rfl⟩ := exists_ofNodes_of_extract h
  rfl

/-- A record that is up to date is the stored one, and its digest is that of the content. -/
theorem Index.of_current? {ix : Index} {path : Text} {digest : UInt64} {d : Document}
    (h : ix.current? path digest = some d) :
    ix.digests[path]? = some digest ∧ ix.store.get? path = some d := by
  unfold current? at h
  split_ifs at h with hdigest
  exact ⟨hdigest, h⟩

/-! ## The queue -/

/-- What is queued is clean and absolute. -/
theorem key_of_mem_enqueue {cwd p : Text} (hcwd : Path.isAbsolute cwd = true) {paths : List Text} :
    ∀ {queued : PathSet}, p ∈ (enqueue (Path.absolute cwd) queued paths).2 →
      Path.absolute cwd p = p := by
  induction paths with
  | nil =>
      intro queued h
      cases h
  | cons q rest ih =>
      intro queued h
      rw [enqueue] at h
      split_ifs at h
      · exact ih h
      · rcases List.mem_cons.mp h with rfl | h
        · exact Path.absolute_absolute hcwd q
        · exact ih h

/-- Every given path is queued, or was before. -/
theorem key_mem_enqueue {key : Text → Text} {p : Text} {paths : List Text} (hp : p ∈ paths) :
    ∀ queued : PathSet, key p ∈ queued ∨ key p ∈ (enqueue key queued paths).2 := by
  induction paths with
  | nil => cases hp
  | cons q rest ih =>
      intro queued
      rw [enqueue]
      split_ifs with hq
      · rcases List.mem_cons.mp hp with rfl | hp
        · exact Or.inl (Std.ExtTreeSet.contains_iff_mem.mp hq)
        · exact ih hp queued
      · rcases List.mem_cons.mp hp with rfl | hp
        · exact Or.inr List.mem_cons_self
        · rcases ih hp (queued.insert (key q)) with h | h
          · rw [Std.ExtTreeSet.mem_insert, Std.LawfulEqCmp.compare_eq_iff_eq] at h
            rcases h with h | h
            · exact Or.inr (by rw [← h]; exact List.mem_cons_self)
            · exact Or.inl h
          · exact Or.inr (List.mem_cons_of_mem _ h)

/-! ## A new workspace -/

/-- A workspace below the root directory that knows nothing yet and excludes nothing. -/
def emptyWorkspace : Workspace :=
  ⟨text "/", { Settings.default with scannerExclude := [] }, Index.empty (text "/"), false, false⟩

theorem create_emptyWorkspace :
    Workspace.create (text "/") (text "/") { Settings.default with scannerExclude := [] }
      = .ok emptyWorkspace := by
  rfl

end StyleIndex
