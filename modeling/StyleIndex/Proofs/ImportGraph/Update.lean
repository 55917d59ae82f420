import Mathlib.Tactic
import StyleIndex.ImportGraph.Basic

set_option autoImplicit false

/-! # The edges that leave a document

What the operations of the import graph do to the edges that leave each document. An update of one
document makes its edges those to the given targets, itself aside, and leaves the edges of every
other document as they are (`mem_dependencies_update`); removing a document removes its own edges
(`mem_dependencies_remove`). Both are loops that take away or add one edge after another, so each
rests on a lemma about a single edge.
-/

namespace StyleIndex

/-! ## The order of texts -/

namespace Text

/-- The order in which sets of texts are listed is that of the texts. -/
theorem lt_of_compare {a b : Text} (h : compare a b = .lt) : a < b := by
  rw [List.compare_eq_compareLex] at h
  induction a generalizing b with
  | nil =>
      cases b with
      | nil => cases h
      | cons y b => exact List.nil_lt_cons y b
  | cons x a ih =>
      cases b with
      | nil => cases h
      | cons y b =>
          rw [List.compareLex_cons_cons, Ordering.then_eq_lt] at h
          rw [List.cons_lt_cons_iff]
          rcases h with h | ⟨hxy, h⟩
          · exact Or.inl (Std.compare_eq_lt.mp h)
          · exact Or.inr ⟨Std.LawfulEqCmp.eq_of_compare hxy, ih h⟩

theorem mem_dropRepeats {t : Text} {ts : List Text} : t ∈ dropRepeats ts ↔ t ∈ ts := by
  fun_induction dropRepeats ts with
  | case1 a rest ih => simp only [ih, List.mem_cons, or_self_left]
  | case2 a b rest hne ih => simp only [List.mem_cons, ih]
  | case3 => rfl

theorem mem_sortUnique {t : Text} {ts : List Text} : t ∈ sortUnique ts ↔ t ∈ ts := by
  rw [sortUnique, mem_dropRepeats, sort, List.mem_mergeSort]

end Text

/-- A set of paths is listed in strictly increasing order. -/
theorem PathSet.pairwise_toList (s : PathSet) : s.toList.Pairwise (· < ·) := by
  refine Std.ExtTreeSet.ordered_toList.imp ?_
  intro a b h
  exact Text.lt_of_compare h

/-! ## Relations stored by their left side -/

namespace PathIndex

variable (i : PathIndex) (a b x y : Text)

/-- Linking two paths relates them, and changes nothing else. -/
theorem mem_targets_link : y ∈ (i.link a b).targets x ↔ (x = a ∧ y = b) ∨ y ∈ i.targets x := by
  rw [link, targets, Std.ExtTreeMap.getD_insert]
  split_ifs with h
  · have h : a = x := Std.LawfulEqCmp.eq_of_compare h
    subst h
    rw [Std.ExtTreeSet.mem_insert, Std.LawfulEqCmp.compare_eq_iff_eq]
    simp only [true_and, eq_comm]
  · have hne : x ≠ a := fun hx => h (by rw [hx]; exact Std.ReflCmp.compare_self)
    simp only [hne, false_and, false_or]
    rfl

/-- Unlinking two paths takes them apart, and changes nothing else. -/
theorem mem_targets_unlink :
    y ∈ (i.unlink a b).targets x ↔ y ∈ i.targets x ∧ ¬(x = a ∧ y = b) := by
  have hrest : y ∈ (i.targets a).erase b ↔ y ∈ i.targets a ∧ y ≠ b := by
    rw [Std.ExtTreeSet.mem_erase, ne_eq, Std.LawfulEqCmp.compare_eq_iff_eq, and_comm]
    simp only [ne_eq, eq_comm]
  by_cases hx : x = a
  · subst hx
    simp only [true_and, ← ne_eq]
    rw [← hrest, unlink]
    split_ifs with hempty
    · -- an entry without paths is dropped, and is empty when it is asked for
      rw [Std.ExtTreeSet.isEmpty_iff.mp hempty, targets, Std.ExtTreeMap.getD_erase_self]
    · rw [targets, Std.ExtTreeMap.getD_insert_self]
  · have hne : compare a x ≠ .eq := fun h => hx (Std.LawfulEqCmp.eq_of_compare h).symm
    simp only [hx, false_and, not_false_eq_true, and_true]
    rw [unlink]
    split_ifs
    · rw [targets, Std.ExtTreeMap.getD_erase, if_neg hne]
      rfl
    · rw [targets, Std.ExtTreeMap.getD_insert, if_neg hne]
      rfl

end PathIndex

/-! ## Edges of the import graph -/

namespace ImportGraph

variable (g : ImportGraph) (path : Text)

theorem mem_dependencies {t : Text} : t ∈ g.dependencies path ↔ t ∈ g.imported.targets path :=
  Std.ExtTreeSet.mem_toList

/-- The dependencies of a document are in strictly increasing order. -/
theorem pairwise_dependencies : (g.dependencies path).Pairwise (· < ·) :=
  PathSet.pairwise_toList _

theorem imported_prune : (g.prune path).imported = g.imported := by
  unfold prune
  split_ifs <;> rfl

theorem mem_targets_removeEdge (t x y : Text) :
    y ∈ (g.removeEdge path t).imported.targets x
      ↔ y ∈ g.imported.targets x ∧ ¬(x = path ∧ y = t) := by
  rw [removeEdge, imported_prune]
  exact g.imported.mem_targets_unlink path t x y

theorem mem_targets_addEdge (t x y : Text) :
    y ∈ (g.addEdge path t).imported.targets x
      ↔ (x = path ∧ y = t) ∨ y ∈ g.imported.targets x :=
  g.imported.mem_targets_link path t x y

/-- Taking edges away one after another. -/
theorem mem_targets_foldl_removeEdge (ts : List Text) (x y : Text) :
    ∀ g : ImportGraph, y ∈ (ts.foldl (fun g t => g.removeEdge path t) g).imported.targets x
      ↔ y ∈ g.imported.targets x ∧ ¬(x = path ∧ y ∈ ts) := by
  induction ts with
  | nil =>
      intro g
      simp
  | cons t ts ih =>
      intro g
      rw [List.foldl_cons, ih, mem_targets_removeEdge, List.mem_cons]
      tauto

/-- Adding edges one after another. -/
theorem mem_targets_foldl_addEdge (ts : List Text) (x y : Text) :
    ∀ g : ImportGraph, y ∈ (ts.foldl (fun g t => g.addEdge path t) g).imported.targets x
      ↔ (x = path ∧ y ∈ ts) ∨ y ∈ g.imported.targets x := by
  induction ts with
  | nil =>
      intro g
      simp
  | cons t ts ih =>
      intro g
      rw [List.foldl_cons, ih, mem_targets_addEdge, List.mem_cons]
      tauto

/-- **An update makes the edges of a document those to its targets**, itself aside, and leaves
those of other documents alone. -/
theorem mem_dependencies_update (targets : List Text) (x y : Text) :
    y ∈ (g.update path targets).dependencies x
      ↔ if x = path then y ∈ targets ∧ y ≠ path else y ∈ g.dependencies x := by
  have hwanted : y ∈ targets.filter (· ≠ path) ↔ y ∈ targets ∧ y ≠ path := by
    simp
  rw [mem_dependencies, update, mem_targets_foldl_addEdge, mem_targets_foldl_removeEdge]
  simp only [List.mem_filter, Text.mem_sortUnique, hwanted, mem_dependencies,
    Bool.not_eq_true', List.contains_eq_mem, decide_eq_false_iff_not, decide_eq_true_eq]
  split_ifs with hx
  · subst hx
    tauto
  · simp only [hx, false_and, false_or, not_false_eq_true, and_true]

/-- Removing a document removes the edges that leave it, and no others. -/
theorem mem_dependencies_remove (x y : Text) :
    y ∈ (g.remove path).dependencies x ↔ x ≠ path ∧ y ∈ g.dependencies x := by
  rw [mem_dependencies, remove, imported_prune, mem_targets_foldl_removeEdge]
  simp only [mem_dependencies]
  by_cases hx : x = path
  · subst hx
    tauto
  · simp only [hx, false_and, not_false_eq_true, and_true, ne_eq, true_and]

variable {g path} {x : Text}

/-- Being in order, the dependencies are determined by their members. -/
theorem dependencies_ext {g' : ImportGraph}
    (h : ∀ y, y ∈ g'.dependencies x ↔ y ∈ g.dependencies x) :
    g'.dependencies x = g.dependencies x :=
  (g'.pairwise_dependencies x).eq_of_mem_iff (g.pairwise_dependencies x) h

theorem dependencies_update_of_ne (h : x ≠ path) (targets : List Text) :
    (g.update path targets).dependencies x = g.dependencies x := by
  refine dependencies_ext fun y => ?_
  rw [mem_dependencies_update, if_neg h]

theorem dependencies_remove_of_ne (h : x ≠ path) :
    (g.remove path).dependencies x = g.dependencies x := by
  refine dependencies_ext fun y => ?_
  rw [mem_dependencies_remove]
  exact and_iff_right h

end ImportGraph

end StyleIndex
