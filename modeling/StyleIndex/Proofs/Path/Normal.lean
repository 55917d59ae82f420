import Mathlib.Tactic
import StyleIndex.Path
import StyleIndex.Proofs.Text.Search

set_option autoImplicit false

/-! # The clean absolute form of a path is stable

Records, queue entries and vertices of the import graph are all named by clean absolute paths. What
keeps them apart from each other is that making such a path absolute again does nothing
(`absolute_absolute`): the elements of a clean path from the root are proper names, a row of
proper names spells a path with just these elements (`elements_ofElements`), and so the clean form
of a clean form is itself.
-/

namespace StyleIndex

/-! ## Splitting at a separator -/

namespace Text

/-- A text without the separator is its only piece. -/
theorem splitOn_of_not_mem {c : UInt8} {t : Text} (h : c ∉ t) : splitOn c t = [t] := by
  induction t with
  | nil => rfl
  | cons d rest ih =>
      rw [List.mem_cons, not_or] at h
      rw [splitOn, if_neg (Ne.symm h.1), ih h.2]

/-- The part in front of the first separator is the first piece. -/
theorem splitOn_append_cons {c : UInt8} {t : Text} (h : c ∉ t) (rest : Text) :
    splitOn c (t ++ c :: rest) = t :: splitOn c rest := by
  induction t with
  | nil => rw [List.nil_append, splitOn, if_pos rfl]
  | cons d t ih =>
      rw [List.mem_cons, not_or] at h
      rw [List.cons_append, splitOn, if_neg (Ne.symm h.1), ih h.2]

/-- No piece holds the separator. -/
theorem not_mem_of_mem_splitOn {c : UInt8} {t piece : Text} :
    piece ∈ splitOn c t → c ∉ piece := by
  induction t generalizing piece with
  | nil =>
      intro h
      obtain rfl := List.mem_singleton.mp h
      simp
  | cons d rest ih =>
      intro h
      rw [splitOn] at h
      split_ifs at h with hd
      · rcases List.mem_cons.mp h with rfl | h
        · simp
        · exact ih h
      · split at h
        · obtain rfl := List.mem_singleton.mp h
          simpa using Ne.symm hd
        · next first pieces hsplit =>
          rcases List.mem_cons.mp h with rfl | h
          · rw [List.mem_cons, not_or]
            exact ⟨Ne.symm hd, ih (by rw [hsplit]; exact List.mem_cons_self)⟩
          · exact ih (by rw [hsplit]; exact List.mem_cons_of_mem _ h)

/-- Pieces without the separator are found again in their join. -/
theorem splitOn_join {c : UInt8} {ts : List Text} (hne : ts ≠ []) (h : ∀ t ∈ ts, c ∉ t) :
    splitOn c (join [c] ts) = ts := by
  induction ts with
  | nil => exact absurd rfl hne
  | cons t rest ih =>
      have ht := h t List.mem_cons_self
      cases rest with
      | nil => exact splitOn_of_not_mem ht
      | cons u rest =>
          have hrest := ih (List.cons_ne_nil u rest) fun v hv => h v (List.mem_cons_of_mem _ hv)
          rw [join, List.append_assoc, List.singleton_append, splitOn_append_cons ht, hrest]
          simp

end Text

/-! ## Clean paths -/

namespace Path

/-- A proper name: an element that neither stays nor goes up, and holds no slash. -/
structure IsName (e : Text) : Prop where
  ne_nil : e ≠ []
  ne_here : e ≠ here
  ne_parent : e ≠ parent
  no_slash : Ascii.slash ∉ e

/-- An element found behind a step was there before it, is the name that was added, or is a step up
that nothing could be taken away for. -/
theorem of_mem_addElement {rooted : Bool} {stack : List Text} {e f : Text}
    (hf : f ∈ addElement rooted stack e) :
    f ∈ stack ∨ (f = e ∧ f ≠ [] ∧ f ≠ here ∧ f ≠ parent) ∨
      (f = parent ∧ (rooted = false ∨ parent ∈ stack)) := by
  by_cases hstay : e = [] ∨ e = here
  · rw [addElement.eq_def, if_pos hstay] at hf
    exact Or.inl hf
  rw [addElement.eq_def, if_neg hstay] at hf
  by_cases hup : e = parent
  · rw [if_pos hup] at hf
    cases stack with
    | nil =>
        cases rooted with
        | false => exact Or.inr (Or.inr ⟨List.mem_singleton.mp hf, Or.inl rfl⟩)
        | true => cases hf
    | cons last before =>
        simp only at hf
        split_ifs at hf with hlast
        · rcases List.mem_cons.mp hf with rfl | hf
          · exact Or.inr (Or.inr ⟨rfl, Or.inr (hlast ▸ List.mem_cons_self)⟩)
          · exact Or.inl hf
        · exact Or.inl (List.mem_cons_of_mem _ hf)
  · rw [if_neg hup] at hf
    rw [not_or] at hstay
    rcases List.mem_cons.mp hf with rfl | hf
    · exact Or.inr (Or.inl ⟨rfl, hstay.1, hstay.2, hup⟩)
    · exact Or.inl hf

/-- What each step leaves of the elements that are added, all of them leave. -/
theorem forall_mem_foldl_addElement {rooted : Bool} {P : Text → Prop} {es : List Text}
    (hes : ∀ e ∈ es, Ascii.slash ∉ e)
    (hstep : ∀ {stack e}, (∀ f ∈ stack, P f) → Ascii.slash ∉ e →
      ∀ f ∈ addElement rooted stack e, P f) :
    ∀ {stack : List Text}, (∀ f ∈ stack, P f) → ∀ f ∈ es.foldl (addElement rooted) stack, P f := by
  induction es with
  | nil => exact id
  | cons e es ih =>
      intro stack hstack
      obtain ⟨he, hes⟩ := List.forall_mem_cons.mp hes
      exact ih hes (hstep hstack he)

theorem isName_of_mem_elements {p e : Text} (hp : isAbsolute p = true) (he : e ∈ elements p) :
    IsName e := by
  rw [elements, hp, List.mem_reverse] at he
  refine forall_mem_foldl_addElement (fun f hf => Text.not_mem_of_mem_splitOn hf) ?_ (by simp) e he
  intro stack e hstack hslash f hf
  rcases of_mem_addElement hf with hf | ⟨rfl, hnil, hhere, hup⟩ | ⟨-, hroot | hup⟩
  · exact hstack f hf
  · exact ⟨hnil, hhere, hup, hslash⟩
  · cases hroot
  · exact absurd rfl (hstack _ hup).ne_parent

/-- Proper names are kept one by one. -/
theorem foldl_addElement_of_isName {es : List Text} (hes : ∀ e ∈ es, IsName e) :
    ∀ stack : List Text, es.foldl (addElement true) stack = es.reverse ++ stack := by
  induction es with
  | nil =>
      intro stack
      rfl
  | cons e es ih =>
      intro stack
      have he := hes e List.mem_cons_self
      have hadd : addElement true stack e = e :: stack := by
        rw [addElement.eq_def, if_neg (not_or.mpr ⟨he.ne_nil, he.ne_here⟩), if_neg he.ne_parent]
      rw [List.foldl_cons, hadd, ih fun f hf => hes f (List.mem_cons_of_mem _ hf)]
      simp

@[simp] theorem isAbsolute_ofElements (es : List Text) :
    isAbsolute (ofElements true es) = true := rfl

/-- Proper names are the elements of the path from the root that they spell. -/
theorem elements_ofElements {es : List Text} (hes : ∀ e ∈ es, IsName e) :
    elements (ofElements true es) = es := by
  -- the slash in front gives an empty element, which is passed over
  have hfold : (Text.splitOn Ascii.slash (Text.join [Ascii.slash] es)).foldl (addElement true) []
      = es.reverse := by
    cases es with
    | nil => rfl
    | cons e rest =>
        rw [Text.splitOn_join (List.cons_ne_nil e rest) fun f hf => (hes f hf).no_slash,
          foldl_addElement_of_isName hes, List.append_nil]
  have hsplit : Text.splitOn Ascii.slash (ofElements true es)
      = [] :: Text.splitOn Ascii.slash (Text.join [Ascii.slash] es) := rfl
  have hempty : addElement true [] [] = [] := rfl
  rw [elements, isAbsolute_ofElements, hsplit, List.foldl_cons, hempty, hfold, List.reverse_reverse]

theorem isAbsolute_clean {p : Text} (hp : isAbsolute p = true) : isAbsolute (clean p) = true := by
  rw [clean, hp]
  rfl

/-- A clean path from the root is its own clean form. -/
theorem clean_clean {p : Text} (hp : isAbsolute p = true) : clean (clean p) = clean p := by
  have hclean : clean p = ofElements true (elements p) := by rw [clean, hp]
  rw [hclean, clean, isAbsolute_ofElements,
    elements_ofElements fun e he => isName_of_mem_elements hp he]

/-- Against a directory from the root, the absolute form of a path is the clean form of some path
from the root. -/
theorem exists_absolute_eq_clean {cwd : Text} (hcwd : isAbsolute cwd = true) (p : Text) :
    ∃ q, isAbsolute q = true ∧ absolute cwd p = clean q := by
  by_cases hp : isAbsolute p = true
  · exact ⟨p, hp, by rw [absolute, if_pos hp]⟩
  · cases cwd with
    | nil => cases hcwd
    | cons c rest =>
        have hjoin : absolute (c :: rest) p = clean (Text.join [Ascii.slash] [c :: rest, p]) := by
          rw [absolute, if_neg hp]
          rfl
        exact ⟨Text.join [Ascii.slash] [c :: rest, p], hcwd, hjoin⟩

/-- **Making a path absolute twice is making it absolute once.** -/
theorem absolute_absolute {cwd : Text} (hcwd : isAbsolute cwd = true) (p : Text) :
    absolute cwd (absolute cwd p) = absolute cwd p := by
  obtain ⟨q, hq, heq⟩ := exists_absolute_eq_clean hcwd p
  rw [heq, absolute, if_pos (isAbsolute_clean hq), clean_clean hq]

theorem dropCommon_append (es names : List Text) : dropCommon es (es ++ names) = ([], names) := by
  induction es with
  | nil => cases names <;> rfl
  | cons e es ih => rw [List.cons_append, dropCommon, if_pos rfl, ih]

/-! ## Directory, last element and extension -/

/-- A path that has a slash has a last one. -/
theorem exists_last_slash {p : Text} (h : Ascii.slash ∈ p) :
    ∃ dir last, p = dir ++ Ascii.slash :: last ∧ Ascii.slash ∉ last := by
  obtain ⟨last, dir, hp, hlast⟩ := List.eq_append_cons_of_mem (List.mem_reverse.mpr h)
  refine ⟨dir.reverse, last.reverse, ?_, by simpa using hlast⟩
  rw [← List.reverse_reverse p, hp]
  simp

theorem split_append (dir : Text) {last : Text} (h : Ascii.slash ∉ last) :
    split (dir ++ Ascii.slash :: last) = (dir ++ [Ascii.slash], last) := by
  rw [split, Text.lastByteIndex?_append dir h]
  simp [List.take_append, List.drop_append]

theorem split_of_not_mem {p : Text} (h : Ascii.slash ∉ p) : split p = ([], p) := by
  rw [split, Text.lastByteIndex?_of_not_mem h]

theorem isAbsolute_directory {p : Text} (hp : isAbsolute p = true) :
    isAbsolute (directory p) = true := by
  have hmem : Ascii.slash ∈ p := List.mem_of_mem_head? (by simpa [isAbsolute] using hp)
  obtain ⟨dir, last, rfl, hlast⟩ := exists_last_slash hmem
  rw [directory, split_append dir hlast]
  refine isAbsolute_clean ?_
  cases dir with
  | nil => rfl
  | cons c dir => exact hp

theorem isAbsolute_join {dir : Text} (hdir : isAbsolute dir = true) (p : Text) :
    isAbsolute (join [dir, p]) = true := by
  cases dir with
  | nil => cases hdir
  | cons c dir =>
      have hjoin : join [c :: dir, p] = clean (Text.join [Ascii.slash] [c :: dir, p]) := rfl
      rw [hjoin]
      exact isAbsolute_clean hdir

/-- The extension of a path is what is added to it from a dot on. -/
theorem extension_append (p : Text) {name : Text} (hslash : Ascii.slash ∉ name)
    (hdot : Ascii.dot ∉ name) : extension (p ++ Ascii.dot :: name) = Ascii.dot :: name := by
  have hname : Ascii.slash ∉ Ascii.dot :: name :=
    List.not_mem_cons_of_ne_of_not_mem (by decide) hslash
  have hsplit : ∃ last, (split (p ++ Ascii.dot :: name)).2 = last ++ Ascii.dot :: name := by
    by_cases hmem : Ascii.slash ∈ p
    · obtain ⟨dir, last, rfl, hlast⟩ := exists_last_slash hmem
      refine ⟨last, ?_⟩
      rw [List.append_assoc, List.cons_append, split_append dir]
      exact List.not_mem_append hlast hname
    · refine ⟨p, ?_⟩
      rw [split_of_not_mem (List.not_mem_append hmem hname)]
  obtain ⟨last, hlast⟩ := hsplit
  rw [extension, hlast, Text.lastByteIndex?_append last hdot]
  exact List.drop_left

end Path

end StyleIndex
