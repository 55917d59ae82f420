import Mathlib
import StyleIndex.Proofs.Files.Discovery
import StyleIndex.Proofs.Text.Search

set_option autoImplicit false

/-! # Discovery finds what is not ignored

Two places decide which stylesheets belong to a workspace. Discovery walks down from the root and
leaves out a directory as soon as it is excluded or lies too deep; the test of a single path looks
at all directories around the path at once. They agree as far as the walk gets
(`discover_not_ignored`): it passes over a directory that cannot be listed, which the test knows
nothing of (`discover_mixedFiles_incomplete`).

Both are brought to one form, the names that lead from the root to a file. The walk takes the file
if it goes into every directory on the way (`Directory.mem_files_iff`), that is for every proper
beginning of the names. The test computes the relative path, whose pieces are the names again
(`Path.relative?_ofElements`), and asks the same of the same beginnings (`ignored_ofElements`).
Nothing is used of the patterns; each is asked the same question on both sides.
-/

namespace StyleIndex

/-! ## Paths below a directory -/

namespace Path

variable {es names : List Text}

theorem clean_ofElements (hes : ∀ e ∈ es, IsName e) :
    clean (ofElements true es) = ofElements true es := by
  rw [clean, isAbsolute_ofElements, elements_ofElements hes]

theorem ofElements_inj {es' : List Text} (hes : ∀ e ∈ es, IsName e) (hes' : ∀ e ∈ es', IsName e)
    (h : ofElements true es = ofElements true es') : es = es' := by
  rw [← elements_ofElements hes, h, elements_ofElements hes']

/-- The pieces of a relative path are its names. -/
theorem splitOn_ofNames (hnames : ∀ e ∈ names, IsName e) (hne : names ≠ []) :
    Text.splitOn Ascii.slash (ofNames names) = names :=
  Text.splitOn_join hne fun e he => (hnames e he).no_slash

/-- Proper names neither lead out of a directory nor stay there. -/
theorem leadsOut_ofNames (hnames : ∀ e ∈ names, IsName e) (hne : names ≠ []) :
    leadsOut (ofNames names) = false ∧ ofNames names ≠ here := by
  have hsplit := splitOn_ofNames hnames hne
  have hparent : parent ∉ names := fun h => (hnames _ h).ne_parent rfl
  refine ⟨?_, ?_⟩
  · rw [leadsOut, Bool.or_eq_false_iff]
    constructor
    · rw [beq_eq_false_iff_ne]
      intro heq
      rw [heq] at hsplit
      exact hparent (by rw [← hsplit]; decide)
    · rw [Bool.eq_false_iff]
      intro hstart
      obtain ⟨t, ht⟩ := List.isPrefixOf_iff_prefix.mp hstart
      rw [← ht, List.append_assoc, List.singleton_append, Text.splitOn_append_cons (by decide)]
        at hsplit
      exact hparent (by rw [← hsplit]; exact List.mem_cons_self)
  · intro heq
    rw [heq] at hsplit
    have hhere : here ∈ names := by
      rw [← hsplit]
      decide
    exact (hnames _ hhere).ne_here rfl

/-- **The relative path from a directory to what lies below it** is made of the names in between. -/
theorem relative?_ofElements (hall : ∀ e ∈ es ++ names, IsName e) (hne : names ≠ []) :
    relative? (ofElements true es) (ofElements true (es ++ names)) = some (ofNames names) := by
  have hes : ∀ e ∈ es, IsName e := fun e he => hall e (List.mem_append_left _ he)
  have hapart : ofElements true es ≠ ofElements true (es ++ names) := by
    intro heq
    exact hne (List.self_eq_append_right.mp (ofElements_inj hes hall heq))
  have hhere : ofElements true (es ++ names) ≠ here :=
    fun h => absurd (List.cons.inj h).1 (by decide)
  rw [relative?, clean_ofElements hes, clean_ofElements hall, if_neg hapart]
  simp only [isAbsolute_ofElements, bne_self_eq_false, Bool.false_eq_true, if_false, if_neg hhere,
    elements_ofElements hes, elements_ofElements hall, dropCommon_append, List.head?_nil,
    List.map_nil, List.nil_append, reduceCtorEq, false_and]
  rfl

/-- The last of a row of names stands alone or behind a slash. -/
theorem split_join (front : Text) {names : List Text} (hnames : ∀ e ∈ names, IsName e)
    (hne : names ≠ []) :
    (split (front ++ Ascii.slash :: Text.join [Ascii.slash] names)).2 = names.getLast hne := by
  induction names generalizing front with
  | nil => exact absurd rfl hne
  | cons e names ih =>
      have he := (hnames e List.mem_cons_self).no_slash
      cases names with
      | nil =>
          show (split (front ++ Ascii.slash :: e)).2 = e
          rw [split_append front he]
      | cons e' names =>
          have hrest := ih (front ++ Ascii.slash :: e)
            (fun f hf => hnames f (List.mem_cons_of_mem _ hf)) (List.cons_ne_nil _ _)
          have hshape : front ++ Ascii.slash :: Text.join [Ascii.slash] (e :: e' :: names)
              = (front ++ Ascii.slash :: e) ++ Ascii.slash
                :: Text.join [Ascii.slash] (e' :: names) := by
            simp [Text.join]
          rw [hshape, hrest, List.getLast_cons (List.cons_ne_nil _ _)]

/-- Names have the same last element whatever directory they start from. -/
theorem extension_ofElements (hall : ∀ e ∈ es ++ names, IsName e) (hne : names ≠ []) :
    extension (ofElements true (es ++ names)) = extension (ofNames names) := by
  have hnames : ∀ e ∈ names, IsName e := fun e he => hall e (List.mem_append_right _ he)
  have hbelow : (split (ofElements true (es ++ names))).2 = names.getLast hne := by
    have hlast := split_join [] hall (List.append_ne_nil_of_right_ne_nil es hne)
    rwa [List.getLast_append_of_ne_nil _ hne] at hlast
  have hrelative : (split (ofNames names)).2 = names.getLast hne := by
    cases names with
    | nil => exact absurd rfl hne
    | cons e rest =>
        cases rest with
        | nil =>
            have he := (hnames e List.mem_cons_self).no_slash
            show (split e).2 = e
            rw [split_of_not_mem he]
        | cons e' rest =>
            have hlast := split_join e (fun f hf => hnames f (List.mem_cons_of_mem _ hf))
              (List.cons_ne_nil e' rest)
            rw [List.getLast_cons (List.cons_ne_nil e' rest), ← hlast]
            simp [ofNames, Text.join]
  rw [extension, extension, hbelow, hrelative]

/-- `f` is a clean absolute path strictly below the directory `root`: the elements of the root are
the first of its elements, and there are more of them. -/
structure LiesBelow (root f : Text) : Prop where
  absolute : isAbsolute f = true
  clean : clean f = f
  elements : elements root <+: elements f
  apart : f ≠ root

/-- What lies below a directory is reached by one more name, or several. -/
theorem liesBelow_iff (hes : ∀ e ∈ es, IsName e) {f : Text} :
    LiesBelow (ofElements true es) f ↔ ∃ names, names ≠ [] ∧ (∀ e ∈ es ++ names, IsName e) ∧
      f = ofElements true (es ++ names) := by
  constructor
  · rintro ⟨habs, hclean, ⟨names, hnames⟩, hapart⟩
    rw [elements_ofElements hes] at hnames
    have hf : f = ofElements true (es ++ names) := by
      rw [hnames, ← habs]
      exact hclean.symm
    refine ⟨names, ?_, ?_, hf⟩
    · rintro rfl
      rw [List.append_nil] at hf
      exact hapart hf
    · rw [hnames]
      exact fun e he => isName_of_mem_elements habs he
  · rintro ⟨names, hne, hall, rfl⟩
    refine ⟨rfl, clean_ofElements hall, ?_, ?_⟩
    · rw [elements_ofElements hes, elements_ofElements hall]
      exact List.prefix_append es names
    · intro heq
      exact hne (List.self_eq_append_right.mp (ofElements_inj hes hall heq.symm))

/-- What lies between a directory and something below it is reached by some of the names, but not
by all of them. -/
theorem liesBelow_liesBelow_iff (hall : ∀ e ∈ es ++ names, IsName e) {g : Text} :
    LiesBelow (ofElements true es) g ∧ LiesBelow g (ofElements true (es ++ names)) ↔
      ∃ k, 0 < k ∧ k < names.length ∧ g = ofElements true (es ++ names.take k) := by
  have hes : ∀ e ∈ es, IsName e := fun e he => hall e (List.mem_append_left _ he)
  constructor
  · rintro ⟨hg, hf⟩
    obtain ⟨front, hfront, hfrontAll, rfl⟩ := (liesBelow_iff hes).mp hg
    obtain ⟨back, hback, hbackAll, heq⟩ := (liesBelow_iff hfrontAll).mp hf
    have hnames : names = front ++ back := by
      have happend := ofElements_inj hall hbackAll heq
      rw [List.append_assoc] at happend
      exact List.append_cancel_left happend
    refine ⟨front.length, List.length_pos_of_ne_nil hfront, ?_, ?_⟩
    · have hpos := List.length_pos_of_ne_nil hback
      rw [hnames, List.length_append]
      omega
    · rw [hnames, List.take_left]
  · rintro ⟨k, hpos, hlt, rfl⟩
    have hfront : ∀ e ∈ es ++ names.take k, IsName e := by
      intro e he
      rcases List.mem_append.mp he with he | he
      · exact hes e he
      · exact hall e (List.mem_append_right _ (List.mem_of_mem_take he))
    have hsplit : es ++ names = (es ++ names.take k) ++ names.drop k := by
      rw [List.append_assoc, List.take_append_drop]
    constructor
    · refine (liesBelow_iff hes).mpr ⟨names.take k, ?_, hfront, rfl⟩
      exact List.ne_nil_of_length_pos (by rw [List.length_take]; omega)
    · refine (liesBelow_iff hfront).mpr ⟨names.drop k, ?_, hsplit ▸ hall, by rw [← hsplit]⟩
      exact List.ne_nil_of_length_pos (by rw [List.length_drop]; omega)

end Path

/-! ## The walk -/

namespace Directory

variable {d : Directory} {enter accept : List Text → Bool}

/-- Whatever the walk finds, it finds under a name of the directory. -/
theorem exists_name_of_mem_files {found : List Text} :
    ∀ {way : List Text}, found ∈ d.files enter accept way →
      ∃ e es, found = way ++ e :: es ∧ e ∈ d.names := by
  induction d with
  | empty =>
      intro way h
      cases h
  | file name content rest ih =>
      intro way h
      rw [files] at h
      rcases List.mem_append.mp h with h | h
      · split_ifs at h
        · exact ⟨name, [], List.mem_singleton.mp h, List.mem_cons_self⟩
        · cases h
      · obtain ⟨e, es, hfound, he⟩ := ih h
        exact ⟨e, es, hfound, List.mem_cons_of_mem _ he⟩
  | folder name access inside rest ihInside ih =>
      intro way h
      rw [files] at h
      rcases List.mem_append.mp h with h | h
      · split_ifs at h
        · obtain ⟨e, es, hfound, -⟩ := ihInside h
          exact ⟨name, e :: es, by rw [hfound]; simp, List.mem_cons_self⟩
        · cases h
      · obtain ⟨e, es, hfound, he⟩ := ih h
        exact ⟨e, es, hfound, List.mem_cons_of_mem _ he⟩

/-- **What a walk finds**: the files that it accepts, if it enters every directory on the way. -/
theorem mem_files_iff {found : List Text} :
    ∀ {way : List Text}, found ∈ d.files enter accept way ↔
      found ∈ d.everyFile way ∧ accept found = true ∧
        ∀ k, way.length < k → k < found.length → enter (found.take k) = true := by
  induction d with
  | empty =>
      intro way
      simp [files, everyFile]
  | file name content rest ih =>
      intro way
      have hevery : found ∈ (Directory.file name content rest).everyFile way ↔
          found = way ++ [name] ∨ found ∈ rest.everyFile way := by
        simp [everyFile, files]
      have hfiles : found ∈ (Directory.file name content rest).files enter accept way ↔
          (found = way ++ [name] ∧ accept found = true) ∨ found ∈ rest.files enter accept way := by
        rw [files, List.mem_append]
        split_ifs with haccept
        · rw [List.mem_singleton, and_iff_left_of_imp]
          rintro rfl
          exact haccept
        · rw [show (found = way ++ [name] ∧ accept found = true) ↔ False from
            ⟨fun h => haccept (h.1 ▸ h.2), False.elim⟩]
          simp
      rw [hfiles, hevery, ih, or_and_right]
      refine or_congr_left ⟨?_, fun h => ⟨h.1, h.2.1⟩⟩
      rintro ⟨hfound, haccept⟩
      refine ⟨hfound, haccept, ?_⟩
      -- no directory stands between
      intro k hway hk
      rw [hfound, List.length_append, List.length_singleton] at hk
      omega
  | folder name access inside rest ihInside ih =>
      intro way
      have hevery : found ∈ (Directory.folder name access inside rest).everyFile way ↔
          found ∈ inside.everyFile (way ++ [name]) ∨ found ∈ rest.everyFile way := by
        simp [everyFile, files]
      have hfiles : found ∈ (Directory.folder name access inside rest).files enter accept way ↔
          (enter (way ++ [name]) = true ∧ found ∈ inside.files enter accept (way ++ [name])) ∨
            found ∈ rest.files enter accept way := by
        rw [files, List.mem_append]
        split_ifs with henter
        · simp [henter]
        · simp [henter]
      rw [hfiles, hevery, ih, ihInside, or_and_right]
      refine or_congr_left ⟨?_, ?_⟩
      · rintro ⟨henter, hfound, haccept, hdeeper⟩
        refine ⟨hfound, haccept, ?_⟩
        intro k hway hk
        -- the directory itself, or one further down
        obtain ⟨e, es, hshape, -⟩ := exists_name_of_mem_files hfound
        by_cases hself : k = (way ++ [name]).length
        · rw [hself, hshape, List.take_left]
          exact henter
        · refine hdeeper k ?_ hk
          rw [List.length_append, List.length_singleton] at hself ⊢
          omega
      · rintro ⟨hfound, haccept, hall⟩
        obtain ⟨e, es, hshape, -⟩ := exists_name_of_mem_files hfound
        refine ⟨?_, hfound, haccept, ?_⟩
        · have hself := hall (way ++ [name]).length (by simp) (by rw [hshape]; simp)
          rwa [hshape, List.take_left] at hself
        · intro k hway hk
          refine hall k ?_ hk
          rw [List.length_append, List.length_singleton] at hway
          omega

/-- The walk finds no file twice. -/
theorem nodup_files : ∀ {way : List Text}, d.WellFormed → (d.files enter accept way).Nodup := by
  -- what is found further back is found under a larger name
  have hapart : ∀ {name : Text} {rest : Directory} {way es : List Text},
      (∀ n ∈ rest.names, name < n) → way ++ name :: es ∉ rest.files enter accept way := by
    intro name rest way es hfirst hmem
    obtain ⟨e, es', hshape, he⟩ := exists_name_of_mem_files hmem
    obtain ⟨rfl, -⟩ := List.cons.inj (List.append_cancel_left hshape)
    exact List.lt_irrefl _ (hfirst name he)
  induction d with
  | empty =>
      intro way _
      exact List.nodup_nil
  | file name content rest ih =>
      intro way hd
      obtain ⟨-, hfirst, hrest⟩ := hd
      rw [files]
      split_ifs
      · exact List.nodup_cons.mpr ⟨hapart hfirst, ih hrest⟩
      · exact ih hrest
  | folder name access inside rest ihInside ih =>
      intro way hd
      obtain ⟨-, hfirst, hrest, hinside⟩ := hd
      rw [files]
      split_ifs
      · rw [List.nodup_append']
        refine ⟨ihInside hinside, ih hrest, ?_⟩
        intro found hleft hright
        obtain ⟨e, es, rfl, -⟩ := exists_name_of_mem_files hleft
        rw [List.append_assoc, List.singleton_append] at hright
        exact hapart hfirst hright
      · exact ih hrest

end Directory

/-- Different texts are sorted strictly. -/
theorem Text.pairwise_sort {ts : List Text} (h : ts.Nodup) : (sort ts).Pairwise (· < ·) := by
  have hle : (sort ts).Pairwise fun a b => decide (a ≤ b) = true := by
    refine List.pairwise_mergeSort ?_ ?_ ts
    · intro a b c hab hbc
      rw [decide_eq_true_eq] at hab hbc ⊢
      exact List.le_trans hab hbc
    · intro a b
      rw [Bool.or_eq_true, decide_eq_true_eq, decide_eq_true_eq]
      exact List.le_total a b
  have hnodup : (sort ts).Nodup := (List.mergeSort_perm ts _).nodup_iff.mpr h
  refine (hle.and hnodup).imp ?_
  rintro a b ⟨hab, hne⟩
  exact Std.lt_of_le_of_ne (of_decide_eq_true hab) hne

namespace FileSystem

variable {fs : FileSystem} {es : List Text}

/-- What a path leads to is well formed. -/
theorem wellFormed_of_find (hcwd : Path.isAbsolute fs.cwd = true) (hfs : fs.top.WellFormed)
    {p : Text} {node : FileNode} (h : fs.find p = .ok node) : node.WellFormed := by
  obtain ⟨es, above, -, -, -, hleads⟩ := exists_leads_of_find hcwd h
  exact hleads.wellFormed hfs

/-- A row of proper names is that of a file exactly if its path is. -/
theorem ofElements_mem_filePaths_iff (hfs : fs.top.WellFormed) (hes : ∀ e ∈ es, Path.IsName e) :
    Path.ofElements true es ∈ fs.filePaths ↔ es ∈ fs.top.everyFile [] := by
  rw [filePaths, List.mem_map]
  constructor
  · rintro ⟨names, hnames, heq⟩
    rwa [← Path.ofElements_inj (Directory.isName_of_mem_everyFile hfs hnames).2 hes heq]
  · exact fun h => ⟨es, h, rfl⟩

/-- Below what a clean path leads to, the paths of files are made of the names that lead on from
there. -/
theorem append_mem_filePaths_iff (hcwd : Path.isAbsolute fs.cwd = true) (hfs : fs.top.WellFormed)
    {root : Text} (hroot : fs.absolute root = Path.ofElements true es) {node : FileNode}
    (h : fs.find (fs.absolute root) = .ok node) {names : List Text}
    (hall : ∀ e ∈ es ++ names, Path.IsName e) :
    Path.ofElements true (es ++ names) ∈ fs.filePaths ↔ names ∈ node.everyFile := by
  have hes : ∀ e ∈ es, Path.IsName e := fun e he => hall e (List.mem_append_left _ he)
  obtain ⟨es', above, hes', hform, -, hleads⟩ := exists_leads_of_find hcwd h
  rw [absolute, Path.absolute_absolute hcwd] at hform
  obtain rfl : es = es' := Path.ofElements_inj hes hes' (hroot.symm.trans hform)
  have hroot : fs.root.WellFormed := hfs
  have hbelow : es.reverse.reverse ++ names ∈ fs.root.everyFile ↔ names ∈ node.everyFile :=
    hleads.append_mem_everyFile_iff hroot
  rw [List.reverse_reverse] at hbelow
  rw [ofElements_mem_filePaths_iff hfs hall]
  exact hbelow

end FileSystem

/-! ## The test of a path -/

namespace Discovery

variable {d : Discovery} {es names : List Text}

/-- The directories around a relative path are the proper beginnings of its names. -/
theorem directoriesOf_ofNames (hnames : ∀ e ∈ names, Path.IsName e) (hne : names ≠ []) :
    directoriesOf (Path.ofNames names)
      = (List.range (names.length - 1)).map fun i => Path.ofNames (names.take (i + 1)) := by
  rw [directoriesOf, Path.splitOn_ofNames hnames hne]
  simp only [List.length_dropLast]
  refine List.map_congr_left fun i hi => ?_
  rw [List.mem_range] at hi
  rw [List.dropLast_eq_take, List.take_take, Nat.min_eq_left (by omega)]
  rfl

/-- **A path below the root is not ignored** if it lies in few enough directories, and neither one
of them nor the path itself is excluded. -/
theorem ignored_ofElements (hroot : d.root = Path.ofElements true es)
    (hall : ∀ e ∈ es ++ names, Path.IsName e) (hne : names ≠ []) :
    d.ignored (Path.ofElements true (es ++ names)) = false ↔
      (names.length : Int) ≤ d.maxDepth + 1 ∧
        ∀ k, 0 < k → k ≤ names.length → d.excludes (Path.ofNames (names.take k)) = false := by
  have hnames : ∀ e ∈ names, Path.IsName e := fun e he => hall e (List.mem_append_right _ he)
  have hpos := List.length_pos_of_ne_nil hne
  obtain ⟨hstays, hhere⟩ := Path.leadsOut_ofNames hnames hne
  rw [ignored, hroot, Path.relative?_ofElements hall hne]
  simp only [hstays, Bool.false_eq_true, if_false, if_neg hhere, directoriesOf_ofNames hnames hne,
    List.length_map, List.length_range, Bool.or_eq_false_iff, decide_eq_false_iff_not, not_lt,
    List.any_eq_false, List.mem_map, List.mem_range, Bool.not_eq_true]
  constructor
  · rintro ⟨⟨hdepth, hdirs⟩, hself⟩
    refine ⟨by omega, ?_⟩
    intro k hk hle
    by_cases hlast : k = names.length
    · rwa [hlast, List.take_length]
    · refine hdirs _ ⟨k - 1, by omega, ?_⟩
      rw [Nat.sub_add_cancel hk]
  · rintro ⟨hdepth, hall⟩
    refine ⟨⟨by omega, ?_⟩, ?_⟩
    · rintro _ ⟨i, hi, rfl⟩
      exact hall (i + 1) (Nat.succ_pos i) (by omega)
    · have hself := hall names.length hpos le_rfl
      rwa [List.take_length] at hself

/-- **The walk takes a file exactly if the test lets it pass**, it has the extension, and every
directory on the way can be listed. -/
theorem mem_files_iff_ignored (hdepth : 0 ≤ d.maxDepth) (hroot : d.root = Path.ofElements true es)
    (hall : ∀ e ∈ es ++ names, Path.IsName e) (hne : names ≠ []) (fs : FileSystem)
    (top : Directory) :
    names ∈ top.files (d.walksInto fs) d.accepts [] ↔ names ∈ top.everyFile [] ∧
      Text.equalsIgnoringCase (Path.extension (Path.ofElements true (es ++ names))) extension
        = true ∧
      d.ignored (Path.ofElements true (es ++ names)) = false ∧
      ∀ k, 0 < k → k < names.length →
        fs.lists (Path.ofElements true (es ++ names.take k)) = true := by
  have hextend : ∀ way, Path.extend d.root way = Path.ofElements true (es ++ way) := by
    intro way
    rw [Path.extend, hroot,
      Path.elements_ofElements fun e he => hall e (List.mem_append_left _ he)]
  have hwalk : ∀ k, d.walksInto fs (names.take k) = true ↔
      (d.excludes (Path.ofNames (names.take k)) = false ∧
        ((names.take k).length : Int) ≤ d.maxDepth) ∧
      fs.lists (Path.ofElements true (es ++ names.take k)) = true := by
    intro k
    rw [walksInto, enters, hextend, Bool.and_eq_true, Bool.and_eq_true, Bool.not_eq_true',
      decide_eq_true_eq]
  rw [Directory.mem_files_iff, ignored_ofElements hroot hall hne,
    Path.extension_ofElements hall hne, accepts, Bool.and_eq_true, Bool.not_eq_true', and_assoc]
  refine and_congr_right fun _ => and_congr_right fun _ => ?_
  have hpos := List.length_pos_of_ne_nil hne
  constructor
  · rintro ⟨hself, henter⟩
    refine ⟨⟨?_, ?_⟩, fun k hk hlt => ((hwalk k).mp (henter k hk hlt)).2⟩
    · -- the deepest directory on the way is entered, if there is one
      by_cases hone : names.length = 1
      · omega
      · have hdeepest := ((hwalk (names.length - 1)).mp
          (henter (names.length - 1) (by rw [List.length_nil]; omega) (by omega))).1.2
        rw [List.length_take] at hdeepest
        omega
    · intro k hk hle
      by_cases hlast : k = names.length
      · rwa [hlast, List.take_length]
      · exact ((hwalk k).mp (henter k hk (by omega))).1.1
  · rintro ⟨⟨hfew, hnone⟩, hlists⟩
    constructor
    · have hself := hnone names.length hpos le_rfl
      rwa [List.take_length] at hself
    · intro k hk hlt
      refine (hwalk k).mpr ⟨⟨hnone k hk (by omega), ?_⟩, hlists k hk hlt⟩
      rw [List.length_take]
      omega

variable {fs : FileSystem} {root : Text}

/-- The files that the walk finds below a directory that is the root. -/
theorem mem_filesIn_iff (hcwd : Path.isAbsolute fs.cwd = true) (hfs : fs.top.WellFormed)
    (hdepth : 0 ≤ d.maxDepth) (hroot : d.root = fs.absolute root) {access : Access}
    {top : Directory} (hfind : fs.find (fs.absolute root) = .ok (.folder access top)) (f : Text) :
    f ∈ d.filesIn fs top ↔ Path.LiesBelow d.root f ∧ f ∈ fs.filePaths ∧
      Text.equalsIgnoringCase (Path.extension f) extension = true ∧ d.ignored f = false ∧
      ∀ g, Path.LiesBelow d.root g → Path.LiesBelow g f → fs.lists g = true := by
  obtain ⟨es, hes, habsolute⟩ := Path.exists_absolute_eq_ofElements hcwd root
  have hshape : d.root = Path.ofElements true es := hroot.trans habsolute
  have htop : top.WellFormed := FileSystem.wellFormed_of_find hcwd hfs hfind
  have hextend : ∀ names, Path.extend d.root names = Path.ofElements true (es ++ names) := by
    intro names
    rw [Path.extend, hshape, Path.elements_ofElements hes]
  -- both sides speak of the names behind the root
  have hnames : ∀ names, names ≠ [] → (∀ e ∈ es ++ names, Path.IsName e) →
      (names ∈ top.files (d.walksInto fs) d.accepts [] ↔
        Path.ofElements true (es ++ names) ∈ fs.filePaths ∧
        Text.equalsIgnoringCase (Path.extension (Path.ofElements true (es ++ names))) extension
          = true ∧
        d.ignored (Path.ofElements true (es ++ names)) = false ∧
        ∀ g, Path.LiesBelow d.root g → Path.LiesBelow g (Path.ofElements true (es ++ names)) →
          fs.lists g = true) := by
    intro names hne hall
    rw [mem_files_iff_ignored hdepth hshape hall hne fs top,
      FileSystem.append_mem_filePaths_iff hcwd hfs habsolute hfind hall, FileNode.everyFile]
    refine and_congr_right fun _ => and_congr_right fun _ => and_congr_right fun _ => ?_
    constructor
    · intro hlists g hg hf
      obtain ⟨k, hk, hlt, rfl⟩ :=
        (Path.liesBelow_liesBelow_iff hall).mp ⟨hshape ▸ hg, hf⟩
      exact hlists k hk hlt
    · intro hlists k hk hlt
      obtain ⟨hg, hf⟩ := (Path.liesBelow_liesBelow_iff hall).mpr ⟨k, hk, hlt, rfl⟩
      exact hlists _ (hshape ▸ hg) hf
  rw [filesIn, Text.sort, List.mem_mergeSort, List.mem_map]
  constructor
  · rintro ⟨names, hmem, rfl⟩
    obtain ⟨hne, hproper⟩ :=
      Directory.isName_of_mem_everyFile htop (Directory.mem_everyFile_of_mem_files hmem)
    have hall : ∀ e ∈ es ++ names, Path.IsName e := by
      intro e he
      exact (List.mem_append.mp he).elim (hes e) (hproper e)
    rw [hextend]
    refine ⟨?_, (hnames names hne hall).mp hmem⟩
    rw [hshape]
    exact (Path.liesBelow_iff hes).mpr ⟨names, hne, hall, rfl⟩
  · rintro ⟨hbelow, hrest⟩
    rw [hshape] at hbelow
    obtain ⟨names, hne, hall, rfl⟩ := (Path.liesBelow_iff hes).mp hbelow
    exact ⟨names, (hnames names hne hall).mpr hrest, hextend names⟩

/-- The walk lists the files in strictly increasing order. -/
theorem pairwise_filesIn {top : Directory} (htop : top.WellFormed) (hes : ∀ e ∈ es, Path.IsName e)
    (hroot : d.root = Path.ofElements true es) : (d.filesIn fs top).Pairwise (· < ·) := by
  refine Text.pairwise_sort (List.Nodup.map_on ?_ (Directory.nodup_files htop))
  -- different names spell different paths
  have hall : ∀ names ∈ top.files (d.walksInto fs) d.accepts [],
      ∀ e ∈ es ++ names, Path.IsName e := by
    intro names hmem e he
    have hevery := Directory.mem_everyFile_of_mem_files hmem
    exact (List.mem_append.mp he).elim (hes e) ((Directory.isName_of_mem_everyFile htop hevery).2 e)
  intro names hmem names' hmem' heq
  rw [Path.extend, Path.extend, hroot, Path.elements_ofElements hes] at heq
  exact List.append_cancel_left
    (Path.ofElements_inj (hall names hmem) (hall names' hmem') heq)

end Discovery

/-- **Discovery and the test of a single path agree** as far as the walk gets. For settings whose
patterns can be read and whose depth is not negative, discovery that is not given up fails only for
a root that leads nowhere and for one that is a directory which cannot be listed. Otherwise it
returns, in strictly increasing order, exactly the paths of the files strictly below the root that
have the extension, in whatever case, that are not ignored, and that lie in no directory which
cannot be listed. -/
theorem discover_not_ignored {fs : FileSystem} {root : Text} {s : Settings} {d : Discovery}
    (hcwd : Path.isAbsolute fs.cwd = true) (hfs : fs.top.WellFormed)
    (hd : Discovery.ofSettings (fs.absolute root) s = .ok d) (hdepth : 0 ≤ s.scannerDepth) :
    (∀ fault, fs.find (fs.absolute root) = .error fault →
      discover fs root s false = .error (.unreadable (fs.absolute root) fault)) ∧
    (∀ access top, fs.find (fs.absolute root) = .ok (.folder access top) → access.listed = false →
      discover fs root s false = .error (.unreadable (fs.absolute root) .unlisted)) ∧
    ∀ node, fs.find (fs.absolute root) = .ok node →
      (fs.isDirectory (fs.absolute root) = true → fs.lists (fs.absolute root) = true) →
      ∃ files, discover fs root s false = .ok files ∧ files.Pairwise (· < ·) ∧
        ∀ f, f ∈ files ↔ Path.LiesBelow (fs.absolute root) f ∧ f ∈ fs.filePaths ∧
          Text.equalsIgnoringCase (Path.extension f) Discovery.extension = true ∧
          d.ignored f = false ∧
          ∀ g, Path.LiesBelow (fs.absolute root) g → Path.LiesBelow g f → fs.lists g = true := by
  obtain ⟨es, hes, habsolute⟩ := Path.exists_absolute_eq_ofElements hcwd root
  obtain ⟨hroot, hlimit⟩ := Discovery.of_ofSettings hd
  have hshape : d.root = Path.ofElements true es := hroot.trans habsolute
  have hdepth' : 0 ≤ d.maxDepth := by rwa [hlimit]
  rw [discover, hd]
  simp only [Discovery.files, hroot]
  refine ⟨?_, ?_, ?_⟩
  · intro fault hfind
    rw [hfind]
  · intro access top hfind hlocked
    rw [hfind]
    simp [hlocked]
  · intro node hfind hlisted
    rw [hfind]
    cases node with
    | file content =>
        refine ⟨[], rfl, List.Pairwise.nil, fun f => ⟨fun h => absurd h List.not_mem_nil, ?_⟩⟩
        -- nothing lies below a file
        rintro ⟨hbelow, hfile, -⟩
        rw [FileSystem.absolute, habsolute, Path.liesBelow_iff hes] at hbelow
        obtain ⟨names, hne, hall, rfl⟩ := hbelow
        rw [FileSystem.append_mem_filePaths_iff hcwd hfs habsolute hfind hall] at hfile
        exact absurd (List.mem_singleton.mp hfile) hne
    | folder access top =>
        have hopen : access.listed = true := by
          simpa [FileSystem.isDirectory, FileSystem.lists, hfind] using hlisted
        have htop : top.WellFormed := FileSystem.wellFormed_of_find hcwd hfs hfind
        refine ⟨d.filesIn fs top, by simp [hopen], Discovery.pairwise_filesIn htop hes hshape, ?_⟩
        intro f
        rw [← hroot]
        exact Discovery.mem_filesIn_iff hcwd hfs hdepth' hroot hfind f

/-- Stylesheets beside another file, in an excluded directory, one directory too deep, and in a
directory that cannot be listed. One of them cannot be read. -/
def mixedFiles : FileSystem where
  top := .folder (text "ws") .full
    (.file (text "A.SCSS") (.readable [])
      (.folder (text "locked") ⟨false, false⟩ (.file (text "d.scss") (.readable []) .empty)
        (.folder (text "node_modules") .full (.file (text "m.scss") (.readable []) .empty)
          (.file (text "notes.txt") (.readable [])
            (.folder (text "sub") .full (.file (text "b.scss") (.unreadable true .denied)
              (.folder (text "deep") .full (.file (text "c.scss") (.readable []) .empty) .empty))
              .empty)))))
    .empty
  cwd := text "/"

def mixedSettings : Settings :=
  { Settings.default with scannerDepth := 1, scannerExclude := [text "**/node_modules"] }

theorem discover_not_ignored_mixedFiles :
    Path.isAbsolute mixedFiles.cwd = true ∧ mixedFiles.top.WellFormed ∧
      0 ≤ mixedSettings.scannerDepth ∧
      mixedFiles.isDirectory (mixedFiles.absolute (text "ws")) = true ∧
      mixedFiles.lists (mixedFiles.absolute (text "ws")) = true ∧
      ∃ d, Discovery.ofSettings (mixedFiles.absolute (text "ws")) mixedSettings = .ok d ∧
        discover mixedFiles (text "ws") mixedSettings false
          = .ok [text "/ws/A.SCSS", text "/ws/sub/b.scss"] ∧
        ∀ f, f ∈ [text "/ws/A.SCSS", text "/ws/sub/b.scss"] ↔
          Path.LiesBelow (mixedFiles.absolute (text "ws")) f ∧ f ∈ mixedFiles.filePaths ∧
            Text.equalsIgnoringCase (Path.extension f) Discovery.extension = true ∧
            d.ignored f = false ∧
            ∀ g, Path.LiesBelow (mixedFiles.absolute (text "ws")) g → Path.LiesBelow g f →
              mixedFiles.lists g = true := by
  have hfs : mixedFiles.top.WellFormed := by decide
  have hdepth : 0 ≤ mixedSettings.scannerDepth := by decide
  have hlists : mixedFiles.lists (mixedFiles.absolute (text "ws")) = true := by cbv
  have hdiscover : discover mixedFiles (text "ws") mixedSettings false
      = .ok [text "/ws/A.SCSS", text "/ws/sub/b.scss"] := by cbv
  obtain ⟨d, hd⟩ : ∃ d,
      Discovery.ofSettings (mixedFiles.absolute (text "ws")) mixedSettings = .ok d :=
    ⟨_, by cbv⟩
  obtain ⟨node, hnode⟩ : ∃ node, mixedFiles.find (mixedFiles.absolute (text "ws")) = .ok node :=
    ⟨_, rfl⟩
  obtain ⟨files, hfiles, -, hmem⟩ :=
    (discover_not_ignored rfl hfs hd hdepth).2.2 node hnode fun _ => hlists
  obtain rfl := Except.ok.inj (hdiscover.symm.trans hfiles)
  exact ⟨rfl, hfs, hdepth, by cbv, hlists, d, hd, hdiscover, hmem⟩

/-- Without the last condition the two disagree: a stylesheet in a directory that cannot be listed
is not found, though the test lets it pass. And below a root that does not exist there is no file,
yet discovery fails. -/
theorem discover_mixedFiles_incomplete :
    (∃ d files, Discovery.ofSettings (mixedFiles.absolute (text "ws")) mixedSettings = .ok d ∧
      discover mixedFiles (text "ws") mixedSettings false = .ok files ∧
      Path.LiesBelow (mixedFiles.absolute (text "ws")) (text "/ws/locked/d.scss") ∧
      text "/ws/locked/d.scss" ∈ mixedFiles.filePaths ∧
      Text.equalsIgnoringCase (Path.extension (text "/ws/locked/d.scss")) Discovery.extension
        = true ∧
      d.ignored (text "/ws/locked/d.scss") = false ∧ text "/ws/locked/d.scss" ∉ files) ∧
    discover mixedFiles (text "none") mixedSettings false
      = .error (.unreadable (text "/none") .missing) := by
  refine ⟨⟨_, _, by cbv, by cbv, ⟨rfl, by cbv, by decide, by decide⟩, by decide +kernel, by cbv,
    by cbv, by decide⟩, by cbv⟩

end StyleIndex
