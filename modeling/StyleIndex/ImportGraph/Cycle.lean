import StyleIndex.ImportGraph.Basic

set_option autoImplicit false

/-! # Import cycles

Documents that import each other, directly or through others, form a group. A group is found as
the set of vertices that a vertex reaches and that reach it back.
-/

namespace StyleIndex

namespace Digraph

/-- The vertices that are not in a set. -/
def outside (g : Digraph) (seen : PathSet) : List Text :=
  g.vertices.filter fun v => !seen.contains v

/-- Adding a vertex to a set leaves fewer outside. -/
theorem length_outside_insert_lt {g : Digraph} {seen : PathSet} {v : Text}
    (hv : g.hasVertex v = true) (hs : seen.contains v = false) :
    (g.outside (seen.insert v)).length < (g.outside seen).length := by
  have h : g.outside (seen.insert v) = (g.outside seen).filter fun w => w != v := by
    simp only [outside, List.filter_filter]
    congr 1
    funext w
    by_cases hw : w = v
    · subst hw
      simp
    · have hc : (compare v w == Ordering.eq) = false := by
        rw [beq_eq_false_iff_ne]
        exact fun h => hw (Std.LawfulEqCmp.eq_of_compare h).symm
      rw [Std.ExtTreeSet.contains_insert, hc, bne_iff_ne.2 hw]
      simp
  rw [h]
  refine List.length_filter_lt_length_iff_exists.mpr ⟨v, ?_, by simp⟩
  simp only [outside, List.mem_filter]
  refine ⟨?_, by rw [hs]; rfl⟩
  simpa [vertices, hasVertex] using hv

/-- The set `seen` together with all vertices reached from `todo` without passing through it. -/
def reach (g : Digraph) (seen : PathSet) : List Text → PathSet
  | [] => seen
  | v :: todo =>
    if _h : g.hasVertex v = true ∧ seen.contains v = false then
      reach g (seen.insert v) (g.next v ++ todo)
    else reach g seen todo
termination_by todo => ((g.outside seen).length, todo.length)
decreasing_by
  · exact Prod.Lex.left _ _ (length_outside_insert_lt _h.1 _h.2)
  · exact Prod.Lex.right _ (by simp)

/-- Each vertex with the vertices it reaches, itself included. -/
def reachTable (g : Digraph) : List (Text × PathSet) :=
  g.vertices.map fun v => (v, g.reach ∅ [v])

/-- The vertices of a table that an entry reaches and that reach it back. -/
def groupOf (table : List (Text × PathSet)) (entry : Text × PathSet) : List Text :=
  (table.filter fun other => entry.2.contains other.1 && other.2.contains entry.1).map (·.1)

end Digraph

/-- The groups of at least two documents that import each other. Each group and the list of
groups are in increasing order. -/
def ImportGraph.cycles (g : ImportGraph) : List (List Text) :=
  let table := g.graph.reachTable
  (table.map fun entry => (entry.1, Digraph.groupOf table entry)).filterMap fun (v, group) =>
    if 2 ≤ group.length ∧ group.head? = some v then some group else none

end StyleIndex
