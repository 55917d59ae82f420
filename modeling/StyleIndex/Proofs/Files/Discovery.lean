import Mathlib.Tactic
import StyleIndex.Proofs.Files.Following

set_option autoImplicit false

/-! # Every discovered path is that of a file

The walk of discovery goes over the entries of each directory, while a path is followed by looking
up names. The two agree on directories in which a name stands once and is a proper name. A
directory is kept in order of its names, and `WellFormed` says that this order is strict, here and
in all directories below; writing and removing files keep it (`wellFormed_write`,
`wellFormed_remove`).

The names that lead to the files of a well-formed directory can then be taken off one by one
(`cons_mem_everyFile_iff`). Every path that discovery finds is among those of the files, and it is
clean (`Discovery.mem_filePaths_of_mem_discover`). That it can be followed, or the file be read, is
not said: a directory on the way may let no paths through, and the file may refuse to be read.
-/

namespace StyleIndex

instance Path.decidableIsName (e : Text) : Decidable (Path.IsName e) :=
  decidable_of_iff (e ≠ [] ∧ e ≠ Path.here ∧ e ≠ Path.parent ∧ Ascii.slash ∉ e)
    ⟨fun h => ⟨h.1, h.2.1, h.2.2.1, h.2.2.2⟩, fun h => ⟨h.1, h.2, h.3, h.4⟩⟩

/-! ## Directories in order -/

namespace Directory

/-- The names in a directory, in their order. -/
def names : Directory → List Text
  | .empty => []
  | .file name _ rest => name :: rest.names
  | .folder name _ _ rest => name :: rest.names

/-- The names in a directory are proper and strictly increasing, and so are those in the
directories below. -/
def WellFormed : Directory → Prop
  | .empty => True
  | .file name _ rest => Path.IsName name ∧ (∀ n ∈ rest.names, name < n) ∧ rest.WellFormed
  | .folder name _ inside rest =>
    Path.IsName name ∧ (∀ n ∈ rest.names, name < n) ∧ rest.WellFormed ∧ inside.WellFormed

instance decidableWellFormed : (d : Directory) → Decidable d.WellFormed
  | .empty => isTrue trivial
  | .file name _ rest =>
    have := decidableWellFormed rest
    inferInstanceAs
      (Decidable (Path.IsName name ∧ (∀ n ∈ rest.names, name < n) ∧ rest.WellFormed))
  | .folder name _ inside rest =>
    have := decidableWellFormed rest
    have := decidableWellFormed inside
    inferInstanceAs (Decidable (Path.IsName name ∧ (∀ n ∈ rest.names, name < n) ∧
      rest.WellFormed ∧ inside.WellFormed))

end Directory

/-- A directory has to be well formed, a file has not. -/
def FileNode.WellFormed : FileNode → Prop
  | .file _ => True
  | .folder _ inside => inside.WellFormed

namespace Directory

variable {d : Directory} {name : Text} {node : FileNode}

theorem mem_names_cons {n : Text} {rest : Directory} :
    n ∈ (cons name node rest).names ↔ n = name ∨ n ∈ rest.names := by
  cases node <;> exact List.mem_cons

theorem wellFormed_cons {rest : Directory} :
    (cons name node rest).WellFormed ↔
      Path.IsName name ∧ (∀ n ∈ rest.names, name < n) ∧ rest.WellFormed ∧ node.WellFormed := by
  cases node with
  | file content => simp [cons, WellFormed, FileNode.WellFormed]
  | folder access inside => rfl

/-- Every directory with an entry is that entry in front of the others. Both kinds of entries
behave alike as long as nothing inside of a directory matters. -/
theorem cons_induction {motive : Directory → Prop} (empty : motive .empty)
    (cons : ∀ name node rest, motive rest → motive (cons name node rest)) (d : Directory) :
    motive d := by
  induction d with
  | empty => exact empty
  | file name content rest ih => exact cons name (.file content) rest ih
  | folder name access inside rest _ ih => exact cons name (.folder access inside) rest ih

theorem get?_cons (n : Text) (rest : Directory) :
    (cons name node rest).get? n = if name = n then some node else rest.get? n := by
  cases node <;> rfl

theorem insert_cons (n : Text) (m : FileNode) (rest : Directory) :
    (cons name node rest).insert n m
      = if n = name then cons n m rest
        else if n < name then cons n m (cons name node rest)
        else cons name node (rest.insert n m) := by
  cases node <;> rfl

theorem erase_cons (n : Text) (rest : Directory) :
    (cons name node rest).erase n = if name = n then rest else cons name node (rest.erase n) := by
  cases node <;> rfl

/-- What is found under a name has that name. -/
theorem mem_names_of_get? (h : d.get? name = some node) : name ∈ d.names := by
  induction d using cons_induction with
  | empty => cases h
  | cons n m rest ih =>
      rw [get?_cons] at h
      rw [mem_names_cons]
      split_ifs at h with hn
      · exact Or.inl hn.symm
      · exact Or.inr (ih h)

theorem WellFormed.get? (hd : d.WellFormed) (h : d.get? name = some node) : node.WellFormed := by
  induction d using cons_induction with
  | empty => cases h
  | cons n m rest ih =>
      obtain ⟨-, -, hrest, hm⟩ := wellFormed_cons.mp hd
      rw [get?_cons] at h
      split_ifs at h
      · cases h
        exact hm
      · exact ih hrest h

/-! ## Changes keep the order -/

theorem mem_names_insert {n : Text} (h : n ∈ (d.insert name node).names) :
    n = name ∨ n ∈ d.names := by
  induction d using cons_induction with
  | empty => exact mem_names_cons.mp h
  | cons other m rest ih =>
      rw [insert_cons] at h
      rw [mem_names_cons]
      split_ifs at h with heq hlt
      · rcases mem_names_cons.mp h with hn | hn
        · exact Or.inl hn
        · exact Or.inr (Or.inr hn)
      · rcases mem_names_cons.mp h with hn | hn
        · exact Or.inl hn
        · exact Or.inr (mem_names_cons.mp hn)
      · rcases mem_names_cons.mp h with hn | hn
        · exact Or.inr (Or.inl hn)
        · exact (ih hn).imp_right Or.inr

/-- **An entry is put where it belongs.** -/
theorem WellFormed.insert (hd : d.WellFormed) (hname : Path.IsName name) (hnode : node.WellFormed) :
    (d.insert name node).WellFormed := by
  induction d using cons_induction with
  | empty => exact wellFormed_cons.mpr ⟨hname, by simp [names], trivial, hnode⟩
  | cons other m rest ih =>
      obtain ⟨hother, hfirst, hrest, hm⟩ := wellFormed_cons.mp hd
      rw [insert_cons]
      by_cases heq : name = other
      · rw [if_pos heq]
        subst heq
        exact wellFormed_cons.mpr ⟨hname, hfirst, hrest, hnode⟩
      rw [if_neg heq]
      by_cases hlt : name < other
      · rw [if_pos hlt]
        refine wellFormed_cons.mpr ⟨hname, ?_, hd, hnode⟩
        intro n hn
        rcases mem_names_cons.mp hn with rfl | hn
        · exact hlt
        · exact List.lt_trans hlt (hfirst n hn)
      · -- neither equal nor in front, so it belongs behind
        rw [if_neg hlt]
        have hgt : other < name := Std.lt_of_le_of_ne (List.not_lt.mp hlt) (Ne.symm heq)
        refine wellFormed_cons.mpr ⟨hother, ?_, ih hrest, hm⟩
        intro n hn
        rcases mem_names_insert hn with rfl | hn
        · exact hgt
        · exact hfirst n hn

theorem mem_names_erase {n : Text} (h : n ∈ (d.erase name).names) : n ∈ d.names := by
  induction d using cons_induction with
  | empty => exact h
  | cons other m rest ih =>
      rw [erase_cons] at h
      rw [mem_names_cons]
      split_ifs at h
      · exact Or.inr h
      · exact (mem_names_cons.mp h).imp_right ih

theorem WellFormed.erase (hd : d.WellFormed) (name : Text) : (d.erase name).WellFormed := by
  induction d using cons_induction with
  | empty => exact hd
  | cons other m rest ih =>
      obtain ⟨hother, hfirst, hrest, hm⟩ := wellFormed_cons.mp hd
      rw [erase_cons]
      split_ifs
      · exact hrest
      · exact wellFormed_cons.mpr
          ⟨hother, fun n hn => hfirst n (mem_names_erase hn), ih hrest, hm⟩

theorem wellFormed_write {way : List Text} (hway : ∀ e ∈ way, Path.IsName e)
    (hname : Path.IsName name) (hnode : node.WellFormed) :
    ∀ {d : Directory}, d.WellFormed → (d.write name node way).WellFormed := by
  induction way with
  | nil =>
      intro d hd
      exact hd.insert hname hnode
  | cons step way ih =>
      intro d hd
      have hstep := hway step List.mem_cons_self
      have hrest : ∀ e ∈ way, Path.IsName e := fun e he => hway e (List.mem_cons_of_mem _ he)
      rw [write]
      split
      · exact hd
      · next access inside hget =>
        have hinside : inside.WellFormed := hd.get? hget
        exact hd.insert hstep (ih hrest hinside)
      · have hempty : Directory.empty.WellFormed := trivial
        exact hd.insert hstep (ih hrest hempty)

theorem wellFormed_remove {way : List Text} (hway : ∀ e ∈ way, Path.IsName e) :
    ∀ {d : Directory}, d.WellFormed → (d.remove name way).WellFormed := by
  induction way with
  | nil =>
      intro d hd
      exact hd.erase name
  | cons step way ih =>
      intro d hd
      have hrest : ∀ e ∈ way, Path.IsName e := fun e he => hway e (List.mem_cons_of_mem _ he)
      rw [remove]
      split
      · next access inside hget =>
        have hinside : inside.WellFormed := hd.get? hget
        exact hd.insert (hway step List.mem_cons_self) (ih hrest hinside)
      · exact hd

end Directory

/-! ## The files of a node -/

/-- The names that lead from a node to each file. A file is reached over no name at all. -/
def FileNode.everyFile : FileNode → List (List Text)
  | .file _ => [[]]
  | .folder _ inside => inside.everyFile []

namespace Directory

variable {d : Directory} {name : Text} {node : FileNode}

/-- The names that lead to a directory stand in front of those that lead on to its files. -/
theorem everyFile_eq_map (way : List Text) (d : Directory) :
    d.everyFile way = (d.everyFile []).map (way ++ ·) := by
  unfold everyFile
  induction d generalizing way with
  | empty => rfl
  | file n content rest ih =>
      simp only [files, if_true, ih way, List.map_append, List.map_cons, List.map_nil,
        List.nil_append]
  | folder n access inside rest ihInside ih =>
      simp only [files, if_true, ih way, ihInside (way ++ [n]), ihInside [n], List.map_append,
        List.map_map, List.nil_append]
      congr 1
      refine List.map_congr_left fun es _ => ?_
      simp

theorem everyFile_cons (rest : Directory) :
    (cons name node rest).everyFile [] = node.everyFile.map (name :: ·) ++ rest.everyFile [] := by
  cases node with
  | file content => rfl
  | folder access inside =>
      show inside.everyFile [name] ++ rest.everyFile []
        = (inside.everyFile []).map (name :: ·) ++ rest.everyFile []
      rw [everyFile_eq_map [name]]
      rfl

/-- **The first name towards a file is looked up**, and the others lead on from there. -/
theorem cons_mem_everyFile_iff (hd : d.WellFormed) {es : List Text} :
    name :: es ∈ d.everyFile [] ↔ ∃ node, d.get? name = some node ∧ es ∈ node.everyFile := by
  induction d using cons_induction with
  | empty => simp [everyFile, files, get?]
  | cons n m rest ih =>
      obtain ⟨-, hfirst, hrest, -⟩ := wellFormed_cons.mp hd
      rw [everyFile_cons, List.mem_append, get?_cons, ih hrest]
      by_cases hn : n = name
      · -- the name does not stand once more further back
        have hlater : rest.get? name = none := by
          rw [Option.eq_none_iff_forall_ne_some]
          intro node hget
          exact List.lt_irrefl _ (hn ▸ hfirst name (mem_names_of_get? hget))
        simp [hn, hlater]
      · simp [hn]

/-- The names that lead to a file are proper, and there is at least one. -/
theorem isName_of_mem_everyFile {names : List Text} (hd : d.WellFormed)
    (h : names ∈ d.everyFile []) : names ≠ [] ∧ ∀ e ∈ names, Path.IsName e := by
  induction d generalizing names with
  | empty => cases h
  | file n content rest ih =>
      change names ∈ (cons n (.file content) rest).everyFile [] at h
      rw [everyFile_cons, List.mem_append] at h
      rcases h with h | h
      · obtain ⟨es, hes, rfl⟩ := List.mem_map.mp h
        obtain rfl := List.mem_singleton.mp hes
        exact ⟨List.cons_ne_nil _ _, by simpa using hd.1⟩
      · exact ih hd.2.2 h
  | folder n access inside rest ihInside ih =>
      change names ∈ (cons n (.folder access inside) rest).everyFile [] at h
      rw [everyFile_cons, List.mem_append] at h
      rcases h with h | h
      · obtain ⟨es, hes, rfl⟩ := List.mem_map.mp h
        exact ⟨List.cons_ne_nil _ _,
          List.forall_mem_cons.mpr ⟨hd.1, (ihInside hd.2.2.2 hes).2⟩⟩
      · exact ih hd.2.2.1 h

/-- What is reached straight down from a well-formed node is well formed. -/
theorem Leads.wellFormed {top : FileNode} {names : List Text} {above : List FileNode}
    (h : Leads top names above node) (htop : top.WellFormed) : node.WellFormed := by
  induction h with
  | top => exact htop
  | enter _ _ _ hget ih => exact WellFormed.get? ih hget

/-- **The files below what is reached straight down** are those of the top whose names begin with
the way. -/
theorem Leads.append_mem_everyFile_iff {top : FileNode} {names : List Text} {above : List FileNode}
    (h : Leads top names above node) (htop : top.WellFormed) {es : List Text} :
    names.reverse ++ es ∈ top.everyFile ↔ es ∈ node.everyFile := by
  induction h generalizing es with
  | top => rfl
  | @enter names above access d name node hleads _ _ hget ih =>
      have hd : d.WellFormed := hleads.wellFormed htop
      have hstep : name :: es ∈ (FileNode.folder access d).everyFile ↔ es ∈ node.everyFile := by
        rw [FileNode.everyFile, cons_mem_everyFile_iff hd, hget]
        simp
      rw [List.reverse_cons, List.append_assoc, List.singleton_append, ih, hstep]

/-- Whatever a walk finds is a file. -/
theorem mem_everyFile_of_mem_files {enter accept : List Text → Bool} {way names : List Text}
    (h : names ∈ d.files enter accept way) : names ∈ d.everyFile way := by
  unfold everyFile
  induction d generalizing way with
  | empty => cases h
  | file n content rest ih =>
      simp only [files, if_true, List.mem_append] at h ⊢
      refine h.imp (fun h => ?_) ih
      split_ifs at h
      · exact h
      · cases h
  | folder n access inside rest ihInside ih =>
      simp only [files, if_true, List.mem_append] at h ⊢
      refine h.imp (fun h => ?_) ih
      split_ifs at h
      · exact ihInside h
      · cases h

end Directory

/-! ## File systems -/

namespace FileSystem

variable {fs : FileSystem}

theorem isName_of_mem_elements_absolute (hcwd : Path.isAbsolute fs.cwd = true) {path e : Text}
    (he : e ∈ Path.elements (fs.absolute path)) : Path.IsName e := by
  obtain ⟨q, hq, heq⟩ := Path.exists_absolute_eq_clean hcwd path
  refine Path.isName_of_mem_elements (p := fs.absolute path) ?_ he
  rw [absolute, heq]
  exact Path.isAbsolute_clean hq

theorem wellFormed_writeFile (hcwd : Path.isAbsolute fs.cwd = true) (hfs : fs.top.WellFormed)
    (path content : Text) : (fs.writeFile path content).top.WellFormed := by
  unfold writeFile
  split_ifs
  · exact hfs
  · unfold put
    split
    · exact hfs
    · next name way helements =>
      have hmem : ∀ e ∈ name :: way, Path.IsName e := by
        intro e he
        rw [← helements, List.mem_reverse] at he
        exact isName_of_mem_elements_absolute hcwd he
      have hfile : (FileNode.file (.readable content)).WellFormed := trivial
      refine Directory.wellFormed_write ?_ (hmem name List.mem_cons_self) hfile hfs
      intro e he
      exact hmem e (List.mem_cons_of_mem _ (List.mem_reverse.mp he))

theorem wellFormed_removeFile (hcwd : Path.isAbsolute fs.cwd = true) (hfs : fs.top.WellFormed)
    (path : Text) : (fs.remove path).top.WellFormed := by
  unfold remove
  split
  · exact hfs
  · next name way helements =>
    refine Directory.wellFormed_remove ?_ hfs
    intro e he
    have hmem : e ∈ Path.elements (fs.absolute path) := by
      rw [← List.mem_reverse, helements]
      exact List.mem_cons_of_mem _ (List.mem_reverse.mp he)
    exact isName_of_mem_elements_absolute hcwd hmem

end FileSystem

namespace Discovery

variable {fs : FileSystem} {d : Discovery} {root p : Text} {s : Settings}

/-- The settings give the depth, and the patterns alone can fail. -/
theorem of_ofSettings (h : ofSettings root s = .ok d) :
    d.root = root ∧ d.maxDepth = s.scannerDepth := by
  unfold ofSettings at h
  cases hpatterns : s.scannerExclude.mapM fun p => (Glob.ofPattern p).map (ExcludePattern.mk p) with
  | error e =>
      rw [hpatterns] at h
      cases h
  | ok patterns =>
      rw [hpatterns] at h
      cases h
      exact ⟨rfl, rfl⟩

/-- The walk below a root finds files that stand below it. -/
theorem exists_of_mem_filesIn (hcwd : Path.isAbsolute fs.cwd = true) (hfs : fs.top.WellFormed)
    {access : Access} {top : Directory} (hroot : d.root = fs.absolute root)
    (hfind : fs.find d.root = .ok (.folder access top)) (hp : p ∈ d.filesIn fs top) :
    ∃ names, (∀ e ∈ names, Path.IsName e) ∧ p = Path.ofElements true names ∧ p ∈ fs.filePaths := by
  obtain ⟨es, above, hes, hform, -, hleads⟩ := FileSystem.exists_leads_of_find hcwd hfind
  rw [hroot, FileSystem.absolute, Path.absolute_absolute hcwd] at hform
  have htop : fs.root.WellFormed := hfs
  rw [filesIn, Text.sort, List.mem_mergeSort] at hp
  obtain ⟨found, hfound, rfl⟩ := List.mem_map.mp hp
  have hevery : found ∈ top.everyFile [] := Directory.mem_everyFile_of_mem_files hfound
  have hbelow : es.reverse.reverse ++ found ∈ fs.root.everyFile :=
    (hleads.append_mem_everyFile_iff htop).mpr hevery
  rw [List.reverse_reverse] at hbelow
  have hpath : Path.extend d.root found = Path.ofElements true (es ++ found) := by
    rw [Path.extend, hroot, FileSystem.absolute, hform, Path.elements_ofElements hes]
  have hnames := (Directory.isName_of_mem_everyFile hfs hbelow).2
  exact ⟨es ++ found, hnames, hpath, hpath ▸ List.mem_map_of_mem hbelow⟩

/-- **Discovery finds files**, each by its clean absolute path. -/
theorem mem_filePaths_of_mem_discover (hcwd : Path.isAbsolute fs.cwd = true)
    (hfs : fs.top.WellFormed) {canceled : Bool} {files : List Text}
    (h : discover fs root s canceled = .ok files) (hp : p ∈ files) :
    p ∈ fs.filePaths ∧ Path.absolute fs.cwd p = p := by
  unfold discover at h
  split at h
  · cases h
  · next d hd =>
    unfold Discovery.files at h
    split at h
    · cases h
    · next node hfind =>
      split_ifs at h
      cases node with
      | file content =>
          -- a root that is a file has no files below
          cases h
          cases hp
      | folder access top =>
          simp only at h
          split_ifs at h
          cases h
          obtain ⟨names, hnames, rfl, hfile⟩ :=
            exists_of_mem_filesIn hcwd hfs (of_ofSettings hd).1 hfind hp
          refine ⟨hfile, ?_⟩
          rw [Path.absolute, if_pos (Path.isAbsolute_ofElements names), Path.clean,
            Path.isAbsolute_ofElements, Path.elements_ofElements hnames]

end Discovery

end StyleIndex
