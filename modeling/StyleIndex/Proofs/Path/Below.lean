import Mathlib.Tactic
import StyleIndex.Proofs.Path.Normal

set_option autoImplicit false

/-! # Paths below a directory

Whether a path lies below a directory is asked of the text of the relative path between them.
`isUnder_iff` says what this comes to: the elements of the path begin with those of the directory.
So a directory whose name only begins with that of another one does not lie below it.

A relative path can go up in front, which a path from the root cannot. This is why the elements in
between have to begin with a name.
-/

namespace StyleIndex

namespace Path

/-! ## Elements -/

/-- An element of a clean path: a proper name, or a step up. -/
structure IsElement (e : Text) : Prop where
  ne_nil : e ≠ []
  ne_here : e ≠ here
  no_slash : Ascii.slash ∉ e

theorem isElement_parent : IsElement parent := ⟨by decide, by decide, by decide⟩

theorem isElement_of_mem_elements {p e : Text} (he : e ∈ elements p) : IsElement e := by
  rw [elements, List.mem_reverse] at he
  refine forall_mem_foldl_addElement (fun f hf => Text.not_mem_of_mem_splitOn hf) ?_ (by simp) e he
  intro stack e hstack hslash f hf
  rcases of_mem_addElement hf with hf | ⟨rfl, hnil, hhere, -⟩ | ⟨rfl, -⟩
  · exact hstack f hf
  · exact ⟨hnil, hhere, hslash⟩
  · exact isElement_parent

section Spelling

variable {es fs : List Text}

/-- A row of elements can be read off the path that it spells. -/
theorem eq_of_join_eq (hes : ∀ e ∈ es, IsElement e) (hfs : ∀ f ∈ fs, IsElement f)
    (h : Text.join [Ascii.slash] es = Text.join [Ascii.slash] fs) : es = fs := by
  have hnil : ∀ {gs : List Text}, (∀ g ∈ gs, IsElement g) →
      Text.join [Ascii.slash] gs = [] → gs = [] := by
    intro gs hgs hjoin
    cases gs with
    | nil => rfl
    | cons g gs =>
        have hg := (hgs g List.mem_cons_self).ne_nil
        cases gs with
        | nil => exact absurd hjoin hg
        | cons g' gs => simp [Text.join, hg] at hjoin
  by_cases hempty : es = []
  · subst hempty
    exact (hnil hfs h.symm).symm
  · have hempty' : fs ≠ [] := by
      rintro rfl
      exact hempty (hnil hes h)
    rw [← Text.splitOn_join hempty fun e he => (hes e he).no_slash, h,
      Text.splitOn_join hempty' fun f hf => (hfs f hf).no_slash]

theorem isAbsolute_ofElements_eq (rooted : Bool) (hes : ∀ e ∈ es, IsElement e) :
    isAbsolute (ofElements rooted es) = rooted := by
  cases rooted with
  | true => rfl
  | false =>
      cases es with
      | nil => rfl
      | cons e es =>
          obtain ⟨c, rest, rfl⟩ := List.exists_cons_of_ne_nil (hes e List.mem_cons_self).ne_nil
          have hc : c ≠ Ascii.slash := by
            rintro rfl
            exact (hes _ List.mem_cons_self).no_slash List.mem_cons_self
          cases es <;> simpa [ofElements, isAbsolute, Text.join] using hc

/-- A relative path without elements is spelt like no other. -/
theorem ofElements_false_eq_here_iff (hes : ∀ e ∈ es, IsElement e) :
    ofElements false es = here ↔ es = [] := by
  cases es with
  | nil => exact ⟨fun _ => rfl, fun _ => rfl⟩
  | cons e es =>
      refine ⟨fun h => ?_, fun h => by cases h⟩
      have hsplit := Text.splitOn_join (List.cons_ne_nil e es) fun f hf => (hes f hf).no_slash
      have hjoin : Text.join [Ascii.slash] (e :: es) = here := h
      rw [hjoin] at hsplit
      have hhere : e = here := (List.cons.inj hsplit).1.symm
      exact absurd hhere (hes e List.mem_cons_self).ne_here

/-- A clean path is spelt in one way only. -/
theorem ofElements_eq_iff {rooted rooted' : Bool} (hes : ∀ e ∈ es, IsElement e)
    (hfs : ∀ f ∈ fs, IsElement f) :
    ofElements rooted es = ofElements rooted' fs ↔ rooted = rooted' ∧ es = fs := by
  refine ⟨fun h => ?_, fun h => by rw [h.1, h.2]⟩
  obtain rfl : rooted = rooted' := by
    rw [← isAbsolute_ofElements_eq rooted hes, h, isAbsolute_ofElements_eq rooted' hfs]
  refine ⟨rfl, ?_⟩
  cases rooted with
  | true => exact eq_of_join_eq hes hfs (List.cons.inj h).2
  | false =>
      by_cases hempty : es = []
      · rw [(ofElements_false_eq_here_iff hes).mpr hempty] at h
        rw [hempty, (ofElements_false_eq_here_iff hfs).mp h.symm]
      · have hempty' : fs ≠ [] := by
          intro hnil
          rw [(ofElements_false_eq_here_iff hfs).mpr hnil] at h
          exact hempty ((ofElements_false_eq_here_iff hes).mp h)
        refine eq_of_join_eq hes hfs ?_
        simpa [ofElements, hempty, hempty'] using h

theorem clean_eq_clean_iff {p q : Text} :
    clean p = clean q ↔ isAbsolute p = isAbsolute q ∧ elements p = elements q :=
  ofElements_eq_iff (fun _ => isElement_of_mem_elements) fun _ => isElement_of_mem_elements

/-! ## The way from a directory to a path -/

/-- A relative path leads out if it begins with a step up. -/
theorem leadsOut_join {e : Text} (he : Ascii.slash ∉ e) (es : List Text) :
    leadsOut (Text.join [Ascii.slash] (e :: es)) = true ↔ e = parent := by
  have hsplit : ∃ rest,
      Text.splitOn Ascii.slash (Text.join [Ascii.slash] (e :: es)) = e :: rest := by
    cases es with
    | nil => exact ⟨[], Text.splitOn_of_not_mem he⟩
    | cons f es =>
        refine ⟨Text.splitOn Ascii.slash (Text.join [Ascii.slash] (f :: es)), ?_⟩
        rw [Text.join, List.append_assoc, List.singleton_append, Text.splitOn_append_cons he]
        simp
  obtain ⟨rest, hrest⟩ := hsplit
  rw [leadsOut, Bool.or_eq_true, beq_iff_eq]
  constructor
  · rintro (h | h)
    · rw [h] at hrest
      exact (List.cons.inj hrest).1.symm
    · obtain ⟨t, ht⟩ := List.isPrefixOf_iff_prefix.mp h
      rw [← ht, List.append_assoc, List.singleton_append, Text.splitOn_append_cons (by decide)]
        at hrest
      exact (List.cons.inj hrest).1.symm
  · rintro rfl
    cases es with
    | nil => exact Or.inl rfl
    | cons f es =>
        refine Or.inr (List.isPrefixOf_iff_prefix.mpr ?_)
        rw [Text.join]
        · exact List.prefix_append _ _
        · simp

/-- If one row does not begin with the other, something of the other is left. -/
theorem fst_dropCommon_ne_nil {as bs : List Text} (h : ¬ as <+: bs) :
    (dropCommon as bs).1 ≠ [] := by
  fun_induction dropCommon as bs with
  | case1 as b bs ih =>
      refine ih fun hprefix => h ?_
      exact List.cons_prefix_cons.mpr ⟨rfl, hprefix⟩
  | case2 a as b bs hab => simp
  | case3 as bs hnot =>
      intro hnil
      subst hnil
      exact h List.nil_prefix

end Spelling

section Way

variable {root p : Text}

theorem elements_of_clean_eq_here (h : clean p = here) : elements p = [] :=
  (clean_eq_clean_iff.mp (h.trans (by decide : here = clean here))).2

/-- The way to a path that is spelt in another way stays in the directory if nothing of the
directory is left and the rest does not begin with a step up. -/
theorem isUnder_eq {up down : List Text} (hne : clean root ≠ clean p)
    (habs : isAbsolute root = isAbsolute p)
    (hdrop : dropCommon (elements root) (if clean p = here then [here] else elements p)
      = (up, down)) :
    isUnder root p = (up.isEmpty && !leadsOut (Text.join [Ascii.slash] down)) := by
  simp only [isUnder, relative?, if_neg hne, habs, bne_self_eq_false, Bool.false_eq_true, if_false,
    hdrop]
  cases up with
  | nil => simp
  | cons e up =>
      -- the way begins with a step up, if there is one
      have hout := (leadsOut_join isElement_parent.no_slash (up.map (fun _ => parent) ++ down)).mpr
        rfl
      split_ifs
      · rfl
      · simp only [List.map_cons, List.cons_append, hout, List.isEmpty_cons, Bool.not_true,
          Bool.false_and]

theorem isUnder_of_elements_eq {below : List Text} (hne : clean root ≠ clean p)
    (habs : isAbsolute root = isAbsolute p) (hbelow : elements p = elements root ++ below) :
    isUnder root p = true ↔ below.head? ≠ some parent := by
  cases below with
  | nil =>
      rw [List.append_nil] at hbelow
      exact absurd (clean_eq_clean_iff.mpr ⟨habs, hbelow.symm⟩) hne
  | cons e es =>
      have he : IsElement e := isElement_of_mem_elements (p := p) (by rw [hbelow]; simp)
      have hgoal : clean p ≠ here := by
        intro h
        rw [elements_of_clean_eq_here h] at hbelow
        exact List.append_ne_nil_of_right_ne_nil _ (List.cons_ne_nil e es) hbelow.symm
      have hdrop := dropCommon_append (elements root) (e :: es)
      rw [isUnder_eq hne habs (by rw [if_neg hgoal, hbelow, hdrop]), List.isEmpty_nil,
        Bool.true_and, Bool.not_eq_true', ← Bool.not_eq_true, leadsOut_join he.no_slash]
      simp

theorem isUnder_of_apart (hne : clean root ≠ clean p) (habs : isAbsolute root = isAbsolute p)
    (h : ¬ elements root <+: elements p) : isUnder root p = false := by
  have hup : ¬ elements root <+: if clean p = here then [here] else elements p := by
    split_ifs
    · intro hprefix
      cases hroot : elements root with
      | nil => exact h (hroot ▸ List.nil_prefix)
      | cons e es =>
          rw [hroot, List.cons_prefix_cons] at hprefix
          exact (isElement_of_mem_elements (p := root) (by rw [hroot]; simp)).ne_here hprefix.1
    · exact h
  rw [isUnder_eq hne habs rfl, List.isEmpty_eq_false_iff.mpr (fst_dropCommon_ne_nil hup),
    Bool.false_and]

end Way

/-- Whether a path is a directory or lies below it: its elements begin with those of the directory,
and the way on does not begin with a step up. -/
def Below (root p : Text) : Prop :=
  isAbsolute root = isAbsolute p ∧
    ∃ below, elements p = elements root ++ below ∧ below.head? ≠ some parent

/-- **A path lies below a directory if its elements begin with those of the directory.** -/
theorem isUnder_iff {root p : Text} : isUnder root p = true ↔ Below root p := by
  by_cases hsame : clean root = clean p
  · obtain ⟨habs, heq⟩ := clean_eq_clean_iff.mp hsame
    have hunder : isUnder root p = true := by
      rw [isUnder, relative?, if_pos hsame]
      rfl
    refine iff_of_true hunder ⟨habs, [], ?_, by simp⟩
    rw [heq, List.append_nil]
  by_cases habs : isAbsolute root = isAbsolute p
  · by_cases hprefix : elements root <+: elements p
    · obtain ⟨below, hbelow⟩ := hprefix
      rw [isUnder_of_elements_eq hsame habs hbelow.symm]
      refine ⟨fun hhead => ⟨habs, below, hbelow.symm, hhead⟩, ?_⟩
      rintro ⟨-, below', heq, hhead⟩
      rw [← hbelow, List.append_cancel_left_eq] at heq
      rwa [heq]
    · rw [isUnder_of_apart hsame habs hprefix]
      refine iff_of_false Bool.false_ne_true ?_
      rintro ⟨-, below, heq, -⟩
      exact hprefix ⟨below, heq.symm⟩
  · -- there is no way between a relative and an absolute path
    have hunder : isUnder root p = false := by
      rw [isUnder, relative?, if_neg hsame, if_pos (by simpa using habs)]
    rw [hunder]
    exact iff_of_false Bool.false_ne_true fun h => habs h.1

instance (root p : Text) : Decidable (Below root p) := decidable_of_iff _ isUnder_iff

end Path

end StyleIndex
