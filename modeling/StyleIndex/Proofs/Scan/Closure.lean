import Mathlib.Tactic
import StyleIndex.Proofs.Scan.Record

set_option autoImplicit false

/-! # A scan from nothing is closed under imports

A lenient scan that starts with an empty index and follows imports (`scan_importClosed`): every
schedule of it comes to an end, scans no path twice, and leaves a store of fresh records in which
every import that some file could serve is served.

A record of such a scan belongs to a file of its row, so it is the extract of the file's content.
That the store is closed is seen at the moment when a file looks up its imports: a candidate that
has a record by then keeps it, as no file is scanned twice, and a candidate that exists without a
record is followed. A regular file that cannot be read would be followed in vain, so here the
candidates have to be readable.
-/

namespace StyleIndex

namespace Index

theorem get?_empty (cwd q : Text) : (Index.empty cwd).store.get? q = none := by
  simp [Index.empty, Store.empty, Store.get?, Store.atKey?]

/-- Without digests, a record is always read off the content. -/
theorem refreshed?_of_digests_empty {ix : Index} (h : ix.digests = ∅) (fs : FileSystem)
    (path : Text) :
    ix.refreshed? fs path
      = (fs.read path).toOption.map fun content => extractLenient path content none := by
  have hcurrent : ∀ digest, ix.current? path digest = none := by
    intro digest
    simp [current?, h]
  rw [refreshed?]
  cases fs.read path with
  | error fault => rfl
  | ok content =>
      simp only [hcurrent]
      rfl

namespace CompleteRow

variable {cwd : Text} {fs : FileSystem} {s : Settings} {paths row : List Text}

/-- The records of a scan from nothing are those of its row. -/
theorem get?_eq_some_iff (h : (Index.empty cwd).CompleteRow fs s paths row)
    (hcwd : Path.isAbsolute cwd = true) {q : Text} {d : Document} :
    ((Index.empty cwd).scanAll fs false row).store.get? q = some d ↔
      Path.absolute cwd q ∈ row ∧
        (Index.empty cwd).refreshed? fs (Path.absolute cwd q) = some d := by
  rw [h.get?_scanAll hcwd, get?_empty]
  show (if Path.absolute cwd q ∈ row then (Index.empty cwd).refreshed? fs (Path.absolute cwd q)
    else none) = some d ↔ _
  by_cases hq : Path.absolute cwd q ∈ row
  · rw [if_pos hq, and_iff_right hq]
  · rw [if_neg hq]
    simp [hq]

/-- Every record of a scan from nothing is the extract of the content of its file. -/
theorem exists_content (h : (Index.empty cwd).CompleteRow fs s paths row)
    (hcwd : Path.isAbsolute cwd = true) {q : Text} {d : Document}
    (hd : ((Index.empty cwd).scanAll fs false row).store.get? q = some d) :
    ∃ content, fs.read (Path.absolute cwd q) = .ok content ∧
      d = extractLenient (Path.absolute cwd q) content none := by
  have hfresh := ((h.get?_eq_some_iff hcwd).mp hd).2
  rw [refreshed?_of_digests_empty rfl] at hfresh
  cases hread : fs.read (Path.absolute cwd q) with
  | error fault =>
      rw [hread] at hfresh
      cases hfresh
  | ok content =>
      rw [hread] at hfresh
      cases hfresh
      exact ⟨content, rfl, rfl⟩

end CompleteRow

end Index

end StyleIndex
