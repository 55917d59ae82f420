import Mathlib.Tactic
import StyleIndex.Discovery.Walk
import StyleIndex.Proofs.Path.Normal

set_option autoImplicit false

/-! # What a path leads to, its clean form leads to

A path is followed element by element and may enter a directory only to leave it again. Its clean
absolute form goes straight down. Whatever the path leads to, the clean form leads to as well
(`find_absolute`); the other way round this fails, as a path through a directory that is missing, or
that lets no paths through, leads nowhere.

While a path is followed, `Leads` keeps the straight way to the node reached so far. An element
changes that way just as it changes the elements of a clean path, so the way at the end is the
clean form of the path.

The clean paths of files are also listed (`filePaths`): there are no more of them than files. The
list shows what stands in the directories, also where no path leads to it.
-/

namespace StyleIndex

namespace Directory

/-- The names, last one first, lead from the topmost directory straight down to a node; `above`
are the directories passed on the way, from the inside out. -/
inductive Leads (top : FileNode) : List Text → List FileNode → FileNode → Prop
  | top : Leads top [] [] top
  | enter {names : List Text} {above : List FileNode} {access : Access} {d : Directory}
      {name : Text} {node : FileNode} : Leads top names above (.folder access d) →
      access.entered = true → Path.IsName name → d.get? name = some node →
      Leads top (name :: names) (.folder access d :: above) node

variable {top : FileNode} {names : List Text} {above : List FileNode} {here : FileNode}

/-- A proper name is looked up in the directory reached so far, if paths may lead through it. -/
theorem follow_name {access : Access} {d : Directory} {name : Text} (hname : Path.IsName name)
    (rest : List Text) :
    follow above (.folder access d) (name :: rest)
      = if access.entered = false then .error .denied
        else match d.get? name with
          | none => .error .missing
          | some node => follow (.folder access d :: above) node rest := by
  have hsteps := follow.eq_def above (.folder access d) (name :: rest)
  simp only [if_neg hname.ne_nil, if_neg hname.ne_here, if_neg hname.ne_parent] at hsteps
  exact hsteps

/-- Going straight down reaches the node. -/
theorem Leads.follow_reverse (h : Leads top names above here) :
    ∀ rest, follow [] top (names.reverse ++ rest) = follow above here rest := by
  induction h with
  | top =>
      intro rest
      rfl
  | @enter names above access d name node _ hentered hname hget ih =>
      intro rest
      have hsplit : (name :: names).reverse ++ rest = names.reverse ++ name :: rest := by simp
      rw [hsplit, ih, follow_name hname, if_neg (by simp [hentered]), hget]

/-- **Following a path keeps the straight way**: each element changes it as it changes the
elements of a clean path. -/
theorem Leads.exists_of_follow {found : FileNode} {es : List Text}
    (hes : ∀ e ∈ es, Ascii.slash ∉ e) :
    ∀ {names : List Text} {above : List FileNode} {here : FileNode}, Leads top names above here →
      follow above here es = .ok found →
      ∃ above', Leads top (es.foldl (Path.addElement true) names) above' found := by
  induction es with
  | nil =>
      intro names above here h hfollow
      cases hfollow
      exact ⟨above, h⟩
  | cons e es ih =>
      intro names above here h hfollow
      have hrest : ∀ f ∈ es, Ascii.slash ∉ f := fun f hf => hes f (List.mem_cons_of_mem _ hf)
      cases here with
      | file content => cases hfollow
      | folder access d =>
          rw [follow.eq_def] at hfollow
          rw [List.foldl_cons, Path.addElement.eq_def]
          simp only at hfollow
          by_cases hnil : e = []
          · rw [if_pos hnil] at hfollow
            rw [if_pos (Or.inl hnil)]
            exact ih hrest h hfollow
          rw [if_neg hnil] at hfollow
          split_ifs at hfollow with hdenied hhere hup
          · rw [if_pos (Or.inr hhere)]
            exact ih hrest h hfollow
          · -- one directory up, and the last name with it; the topmost directory is its own parent
            rw [if_neg (not_or.mpr ⟨hnil, hhere⟩), if_pos hup]
            cases h with
            | top => exact ih hrest .top hfollow
            | enter hinner _ hname _ =>
                simp only [if_neg hname.ne_parent]
                exact ih hrest hinner hfollow
          · rw [if_neg (not_or.mpr ⟨hnil, hhere⟩), if_neg hup]
            have hname : Path.IsName e := ⟨hnil, hhere, hup, hes e List.mem_cons_self⟩
            have hentered : access.entered = true := by simpa using hdenied
            cases hget : d.get? e with
            | none =>
                rw [hget] at hfollow
                cases hfollow
            | some node =>
                rw [hget] at hfollow
                exact ih hrest (.enter h hentered hname hget) hfollow

/-- What holds of a directory and of whatever stands in such a directory holds of all that is found
from there. -/
theorem follow_induction {P : FileNode → Prop}
    (hget : ∀ access d name node, P (.folder access d) → d.get? name = some node → P node)
    {es : List Text} {found : FileNode} :
    ∀ {above : List FileNode} {here : FileNode}, (∀ node ∈ above, P node) → P here →
      follow above here es = .ok found → P found := by
  induction es with
  | nil =>
      intro above here _ hhere h
      cases h
      exact hhere
  | cons e rest ih =>
      intro above here habove hhere h
      cases here with
      | file content => cases h
      | folder access d =>
          rw [follow.eq_def] at h
          simp only at h
          split_ifs at h
          · exact ih habove hhere h
          · exact ih habove hhere h
          · -- up, as far as there is a directory around
            cases above with
            | nil => exact ih habove hhere h
            | cons up above =>
                exact ih (fun node hnode => habove node (List.mem_cons_of_mem _ hnode))
                  (habove up List.mem_cons_self) h
          · split at h
            · cases h
            · next node hnode =>
              exact ih (List.forall_mem_cons.mpr ⟨hhere, habove⟩)
                (hget access d e node hhere hnode) h

/-! ## The list of all files -/

/-- The names that lead to each file. -/
def everyFile (way : List Text) (d : Directory) : List (List Text) :=
  d.files (fun _ => true) (fun _ => true) way

theorem length_everyFile (d : Directory) :
    ∀ way, (d.everyFile way).length = d.fileCount := by
  unfold everyFile
  induction d with
  | empty =>
      intro way
      rfl
  | file name content rest ih =>
      intro way
      simp only [files, fileCount, if_true, List.length_append, List.length_singleton, ih]
  | folder name access inside rest ihInside ih =>
      intro way
      simp only [files, fileCount, if_true, List.length_append, ihInside, ih]

theorem mem_everyFile_of_get? {name : Text} {content : FileContent} {d : Directory}
    (way : List Text)
    (h : d.get? name = some (.file content)) : way ++ [name] ∈ d.everyFile way := by
  unfold everyFile
  induction d with
  | empty => cases h
  | file n c rest ih =>
      rw [get?] at h
      rw [files, if_pos rfl]
      split_ifs at h with hn
      · rw [hn]
        exact List.mem_append_left _ (List.mem_singleton_self _)
      · exact List.mem_append_right _ (ih h)
  | folder n access inside rest _ ih =>
      rw [get?] at h
      split_ifs at h
      · cases h
      · exact List.mem_append_right _ (ih h)

theorem everyFile_subset_of_get? {name : Text} {access : Access} {inside d : Directory}
    (way : List Text) (h : d.get? name = some (.folder access inside)) :
    inside.everyFile (way ++ [name]) ⊆ d.everyFile way := by
  unfold everyFile
  induction d with
  | empty => cases h
  | file n c rest ih =>
      rw [get?] at h
      split_ifs at h
      · cases h
      · exact List.Subset.trans (ih h) (List.subset_append_right _ _)
  | folder n _ inner rest _ ih =>
      rw [get?] at h
      rw [files, if_pos rfl]
      split_ifs at h with hn
      · cases h
        rw [hn]
        exact List.subset_append_left _ _
      · exact List.Subset.trans (ih h) (List.subset_append_right _ _)

/-- A file that is reached straight down is listed. -/
theorem mem_everyFile_of_follow {content : FileContent} {names : List Text}
    (hnames : ∀ e ∈ names, Path.IsName e) :
    ∀ {above : List FileNode} {access : Access} {d : Directory} (way : List Text),
      follow above (.folder access d) names = .ok (.file content) →
        way ++ names ∈ d.everyFile way := by
  induction names with
  | nil =>
      intro above access d way h
      cases h
  | cons name names ih =>
      intro above access d way h
      have hrest : ∀ e ∈ names, Path.IsName e := fun e he => hnames e (List.mem_cons_of_mem _ he)
      rw [follow_name (hnames name List.mem_cons_self)] at h
      split_ifs at h
      cases hget : d.get? name with
      | none =>
          rw [hget] at h
          cases h
      | some node =>
          rw [hget] at h
          cases node with
          | file c =>
              -- nothing lies below a file
              cases names with
              | nil => exact mem_everyFile_of_get? way hget
              | cons e es => cases h
          | folder access' inside =>
              have hmem := everyFile_subset_of_get? way hget (ih hrest (way ++ [name]) h)
              rwa [List.append_assoc, List.singleton_append] at hmem

/-! ## Directories that can be read -/

/-- Whether every regular file in a directory and below can be read. -/
def allReadable : Directory → Bool
  | .empty => true
  | .file _ (.readable _) rest => rest.allReadable
  | .file _ (.unreadable regular _) rest => !regular && rest.allReadable
  | .folder _ _ inside rest => inside.allReadable && rest.allReadable

end Directory

/-- Whether a file can be read, or every regular file in a directory. -/
def FileNode.allReadable : FileNode → Bool
  | .file (.readable _) => true
  | .file (.unreadable regular _) => !regular
  | .folder _ inside => inside.allReadable

namespace Path

/-- The clean absolute form of a path is a row of proper names from the root. -/
theorem exists_absolute_eq_ofElements {cwd : Text} (hcwd : isAbsolute cwd = true) (p : Text) :
    ∃ es, (∀ e ∈ es, IsName e) ∧ absolute cwd p = ofElements true es := by
  obtain ⟨q, hq, heq⟩ := exists_absolute_eq_clean hcwd p
  refine ⟨elements q, fun e he => isName_of_mem_elements hq he, ?_⟩
  rw [heq, clean, hq]

end Path

namespace FileSystem

variable {fs : FileSystem} {p : Text}

/-- What holds of the topmost directory and of whatever stands in such a directory holds of all that
a path leads to. -/
theorem find_induction {P : FileNode → Prop}
    (hget : ∀ access d name node, P (.folder access d) → d.get? name = some node → P node)
    (hroot : P fs.root) {found : FileNode} (h : fs.find p = .ok found) : P found := by
  unfold find at h
  split at h
  · cases h
  · split at h
    · cases h
    · exact Directory.follow_induction hget (by simp) hroot h

/-- A row of proper names is followed from the topmost directory, if it is not too long. -/
theorem find_ofElements (fs : FileSystem) {es : List Text} (hes : ∀ e ∈ es, Path.IsName e) :
    fs.find (Path.ofElements true es)
      = if longestPath < (Path.ofElements true es).length then .error .tooLong
        else Directory.follow [] fs.root es := by
  have hclean : fs.absolute (Path.ofElements true es) = Path.ofElements true es := by
    rw [absolute, Path.absolute, if_pos (Path.isAbsolute_ofElements es), Path.clean,
      Path.isAbsolute_ofElements, Path.elements_ofElements hes]
  have hsplit : Text.splitOn Ascii.slash (Path.ofElements true es)
      = [] :: Text.splitOn Ascii.slash (Text.join [Ascii.slash] es) := rfl
  have hfind : fs.find (Path.ofElements true es)
      = if longestPath < (fs.absolute (Path.ofElements true es)).length then .error .tooLong
        else Directory.follow [] fs.root
          (Text.splitOn Ascii.slash (Path.ofElements true es)) := rfl
  -- the slash in front gives an empty element, which is passed over
  have hskip : ∀ rest, Directory.follow [] fs.root ([] :: rest)
      = Directory.follow [] fs.root rest := by
    intro rest
    rw [root, Directory.follow.eq_def]
    simp only [if_true]
  rw [hfind, hclean, hsplit, hskip]
  cases es with
  | nil => rfl
  | cons e rest =>
      rw [Text.splitOn_join (List.cons_ne_nil e rest) fun f hf => (hes f hf).no_slash]

/-- What a path leads to is reached from the topmost directory over the elements of its clean
absolute form, which is not too long. -/
theorem exists_leads_of_find (hcwd : Path.isAbsolute fs.cwd = true) {node : FileNode}
    (h : fs.find p = .ok node) :
    ∃ es above, (∀ e ∈ es, Path.IsName e) ∧ Path.absolute fs.cwd p = Path.ofElements true es ∧
      ¬longestPath < (Path.ofElements true es).length ∧
      Directory.Leads fs.root es.reverse above node := by
  -- the path that is followed, from the root
  obtain ⟨full, hfull, hclean, hshort, hfollow⟩ : ∃ full, Path.isAbsolute full = true ∧
      Path.absolute fs.cwd p = Path.clean full ∧
      ¬longestPath < (Path.absolute fs.cwd p).length ∧
      Directory.follow [] fs.root (Text.splitOn Ascii.slash full) = .ok node := by
    unfold find at h
    split_ifs at h with hempty hlong habs
    · exact ⟨p, habs, by rw [Path.absolute, if_pos habs], hlong, h⟩
    · refine ⟨fs.cwd ++ [Ascii.slash] ++ p, ?_, ?_, hlong, h⟩
      · cases hc : fs.cwd with
        | nil => rw [hc] at hcwd; cases hcwd
        | cons c rest => rwa [hc] at hcwd
      · cases hc : fs.cwd with
        | nil => rw [hc] at hcwd; cases hcwd
        | cons c rest => rw [Path.absolute, if_neg habs]; rfl
  obtain ⟨above, hleads⟩ := Directory.Leads.exists_of_follow
    (fun e he => Text.not_mem_of_mem_splitOn he) Directory.Leads.top hfollow
  have hform : Path.clean full = Path.ofElements true (Path.elements full) := by
    rw [Path.clean, hfull]
  have helements : (Path.elements full).reverse
      = (Text.splitOn Ascii.slash full).foldl (Path.addElement true) [] := by
    rw [Path.elements, hfull, List.reverse_reverse]
  refine ⟨Path.elements full, above, fun e he => Path.isName_of_mem_elements hfull he,
    hclean.trans hform, ?_, ?_⟩
  · rwa [hclean, hform] at hshort
  · rwa [helements]

/-- **The clean absolute form of a path leads where the path leads.** -/
theorem find_absolute (hcwd : Path.isAbsolute fs.cwd = true) {node : FileNode}
    (h : fs.find p = .ok node) : fs.find (Path.absolute fs.cwd p) = .ok node := by
  obtain ⟨es, above, hes, hform, hshort, hleads⟩ := exists_leads_of_find hcwd h
  have hdown := hleads.follow_reverse []
  rw [List.reverse_reverse, List.append_nil] at hdown
  rw [hform, find_ofElements fs hes, if_neg hshort, hdown]
  rfl

theorem isFile_absolute (hcwd : Path.isAbsolute fs.cwd = true) (h : fs.isFile p = true) :
    fs.isFile (Path.absolute fs.cwd p) = true := by
  unfold isFile at h ⊢
  split at h
  · next content hfind =>
    rw [find_absolute hcwd hfind]
    exact h
  · cases h

/-- The clean paths of all files. -/
def filePaths (fs : FileSystem) : List Text :=
  (fs.top.everyFile []).map (Path.ofElements true)

theorem length_filePaths (fs : FileSystem) : fs.filePaths.length = fs.top.fileCount := by
  rw [filePaths, List.length_map, Directory.length_everyFile]

/-- A clean absolute path that leads to a file is listed. -/
theorem mem_filePaths {cwd : Text} (hcwd : Path.isAbsolute cwd = true)
    (hp : Path.absolute cwd p = p) (hfile : fs.isFile p = true) : p ∈ fs.filePaths := by
  obtain ⟨es, hes, heq⟩ := Path.exists_absolute_eq_ofElements hcwd p
  rw [hp] at heq
  subst heq
  unfold isFile at hfile
  split at hfile
  · next content hfind =>
    rw [find_ofElements fs hes] at hfind
    split_ifs at hfind
    have hmem := Directory.mem_everyFile_of_follow hes [] hfind
    exact List.mem_map.mpr ⟨es, hmem, rfl⟩
  · cases hfile

end FileSystem

end StyleIndex
