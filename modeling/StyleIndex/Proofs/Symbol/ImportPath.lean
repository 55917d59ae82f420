import Mathlib.Tactic
import StyleIndex.Proofs.Path.Normal
import StyleIndex.Proofs.Symbol.Record

set_option autoImplicit false

/-! # Where imports point

An import that is followed should name a stylesheet by an absolute path. Two tests of its text
decide about this, and they do not agree on the addresses of other machines: every text with `://`
is left unresolved, but only the addresses of the web are marked as plain CSS. So an address of
another kind is followed as it stands (`followable_ftp`). For all other imports the path is as it
should be (`isAbsolute_of_followable`).

What starts with two slashes is an address by both tests. For this an import only has to carry the
mark that its text gives it (`MarksHost`); a `url()` may add the mark, but nothing takes it away.
-/

namespace StyleIndex

namespace Import

/-- An import whose text starts with two slashes is marked as plain CSS. -/
def MarksHost (i : Import) : Prop := Text.startsWith i.filepath (text "//") = true → i.css = true

theorem marksHost_ofText (raw : Text) : (ofText raw).MarksHost := by
  intro h
  have h : Text.startsWith raw (text "//") = true := h
  simp [ofText, h]

theorem marksHost_toImport? {keyword : ImportKeyword} {target : ImportTarget} {i : Import}
    (h : target.toImport? keyword = some i) : i.MarksHost := by
  rw [ImportTarget.toImport?] at h
  split_ifs at h
  cases h
  intro hhost
  exact Bool.or_eq_true_iff.mpr (Or.inl (marksHost_ofText target.path hhost))

theorem marksHost_of_mem_imports {n : Node} {i : Import} (h : i ∈ n.imports) : i.MarksHost := by
  unfold Node.imports at h
  split at h
  · obtain ⟨target, -, htarget⟩ := List.mem_filterMap.mp h
    exact marksHost_toImport? htarget
  · cases h

/-- A local import that is resolved and not plain CSS names a stylesheet by an absolute path. -/
theorem resolveIn_local {directory : Text} (hdir : Path.isAbsolute directory = true) {i : Import}
    (hcss : i.css = false) (hdynamic : i.dynamic = false) (hlocal : isRemote i.filepath = false) :
    Path.isAbsolute (resolveIn directory i).filepath = true ∧
      isStylesheetExtension (Path.extension (resolveIn directory i).filepath) = true := by
  have htarget : Path.isAbsolute (if Path.isAbsolute i.filepath then i.filepath
      else Path.join [directory, i.filepath]) = true := by
    split_ifs with habs
    · exact habs
    · exact Path.isAbsolute_join hdir _
  simp only [resolveIn, hdynamic, hlocal, hcss, Bool.false_or, Bool.false_eq_true, if_false]
  generalize (if Path.isAbsolute i.filepath then i.filepath
      else Path.join [directory, i.filepath]) = target at htarget ⊢
  split_ifs with hext
  · exact ⟨htarget, hext⟩
  · have hextension : Path.extension (target ++ text ".scss") = text ".scss" :=
      Path.extension_append target (by decide) (by decide)
    refine ⟨?_, by rw [hextension]; decide +kernel⟩
    cases target with
    | nil => cases htarget
    | cons c target => exact htarget

/-- What is followed has been resolved, unless it is an address with `://`. -/
theorem resolveIn_followable {directory : Text} (hdir : Path.isAbsolute directory = true)
    {i : Import} (hhost : i.MarksHost) (h : (resolveIn directory i).followable = true)
    (haddress : Text.includes (resolveIn directory i).filepath (text "://") = false) :
    Path.isAbsolute (resolveIn directory i).filepath = true ∧
      isStylesheetExtension (Path.extension (resolveIn directory i).filepath) = true := by
  have hmarks : (resolveIn directory i).css = i.css ∧
      (resolveIn directory i).dynamic = i.dynamic := by
    simp only [resolveIn]
    split_ifs <;> exact ⟨rfl, rfl⟩
  rw [followable, hmarks.1, hmarks.2, Bool.and_eq_true, Bool.not_eq_true', Bool.not_eq_true'] at h
  cases hlocal : isRemote i.filepath with
  | false => exact resolveIn_local hdir h.1 h.2 hlocal
  | true =>
      have hleft : resolveIn directory i = i := by simp [resolveIn, hlocal]
      rw [hleft] at haddress
      rw [isRemote, haddress, Bool.or_false] at hlocal
      exact absurd (hhost hlocal) (by simp [h.1])

end Import

/-- **What is followed is a stylesheet with an absolute path.** Every import of a record that is
neither plain CSS nor dynamic, be it of a statement or of a reference comment, has an absolute path
with the extension of a stylesheet, except for addresses with `://`. -/
theorem isAbsolute_of_followable {path t : Text} {scope : Option Int} {strict : Bool} {d : Document}
    (hpath : Path.isAbsolute path = true) (h : extract path t scope strict = .ok d) {i : Import}
    (hi : i ∈ d.imports) (hfollow : i.followable = true)
    (haddress : Text.includes i.filepath (text "://") = false) :
    Path.isAbsolute i.filepath = true ∧
      isStylesheetExtension (Path.extension i.filepath) = true := by
  obtain ⟨nodes, rfl⟩ := exists_ofNodes_of_extract h
  obtain ⟨raw, hraw, rfl⟩ := List.mem_map.mp hi
  have hhost : raw.MarksHost := by
    rcases List.mem_append.mp hraw with hraw | hraw
    · obtain ⟨n, -, hn⟩ := List.mem_flatMap.mp hraw
      exact Import.marksHost_of_mem_imports hn
    · obtain ⟨p, -, rfl⟩ := List.mem_map.mp hraw
      exact Import.marksHost_ofText p
  exact Import.resolveIn_followable (Path.isAbsolute_directory hpath) hhost hfollow haddress

/-- Imports by a reference comment and by statements, one of them of plain CSS. -/
def importingText : Text :=
  text "// <reference path='c'>\n@use '../b.sass';\n@import '//host/d', \"e\";"

def importingRecord : Document :=
  ⟨text "/p/a.scss", [], [], [],
    [⟨text "/b.sass", false, false, false⟩, ⟨text "//host/d", true, false, false⟩,
      ⟨text "/p/e.scss", false, false, false⟩, ⟨text "/p/c.scss", false, false, true⟩]⟩

theorem isAbsolute_of_followable_importingText :
    Path.isAbsolute (text "/p/a.scss") = true ∧
      extract (text "/p/a.scss") importingText none true = .ok importingRecord ∧
      (importingRecord.imports.map (·.followable)) = [true, false, true, true] ∧
      (importingRecord.imports.all fun i => !Text.includes i.filepath (text "://")) = true ∧
      ∀ i ∈ importingRecord.imports, i.followable = true →
        Path.isAbsolute i.filepath = true ∧
          isStylesheetExtension (Path.extension i.filepath) = true := by
  have hpath : Path.isAbsolute (text "/p/a.scss") = true := by decide +kernel
  have hrecord : extract (text "/p/a.scss") importingText none true = .ok importingRecord := by
    decide +kernel
  have haddress : (importingRecord.imports.all fun i =>
      !Text.includes i.filepath (text "://")) = true := by decide +kernel
  refine ⟨hpath, hrecord, by decide +kernel, haddress, fun i hi hfollow => ?_⟩
  have hnone := List.all_eq_true.mp haddress i hi
  rw [Bool.not_eq_true'] at hnone
  exact isAbsolute_of_followable hpath hrecord hi hfollow hnone

/-- An address that is not one of the web is followed, and its path is left as it is: neither
absolute nor that of a stylesheet. -/
theorem followable_ftp :
    Path.isAbsolute (text "/p/a.scss") = true ∧
      ∃ d, extract (text "/p/a.scss") (text "@import \"ftp://x/y\";") none true = .ok d ∧
        ∃ i ∈ d.imports, i.followable = true ∧ i.filepath = text "ftp://x/y" ∧
          Path.isAbsolute i.filepath = false ∧
          isStylesheetExtension (Path.extension i.filepath) = false := by
  let record : Document :=
    ⟨text "/p/a.scss", [], [], [], [⟨text "ftp://x/y", false, false, false⟩]⟩
  refine ⟨by decide +kernel, record, by decide +kernel, _, List.mem_singleton_self _, rfl, rfl, ?_⟩
  exact ⟨by decide +kernel, by decide +kernel⟩

end StyleIndex
