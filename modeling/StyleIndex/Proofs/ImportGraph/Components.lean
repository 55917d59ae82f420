import Mathlib.Tactic
import StyleIndex.ImportGraph.Cycle
import StyleIndex.Proofs.ImportGraph.Refinement

set_option autoImplicit false

/-! # Import cycles are the components of the graph

The search from a vertex finds exactly the vertices that it reaches (`mem_reach_iff`). The group of
a vertex is then its strongly connected component, and two groups with a common member are one
(`component_eq`). A component is reported at its least vertex, so each one is reported once, and
in the order of the least vertices (`cycles_components`).
-/

namespace StyleIndex

namespace Digraph

/-- There is an edge from `a` to `b`. -/
def Edge (g : Digraph) (a b : Text) : Prop := g.hasEdge a b = true

/-- There is a way from `a` to `b`, possibly of no edges. -/
def Reaches (g : Digraph) : Text → Text → Prop := Relation.ReflTransGen g.Edge

variable {g : Digraph}

theorem mem_next {a b : Text} : b ∈ g.next a ↔ g.Edge a b := by
  rw [Edge, hasEdge, PathIndex.related_iff, next, Std.ExtTreeSet.mem_toList]

theorem mem_vertices {v : Text} : v ∈ g.vertices ↔ g.hasVertex v = true := by
  rw [vertices, Std.ExtTreeMap.mem_keys, Std.ExtTreeMap.mem_iff_contains]
  rfl

/-- The vertices are listed in strictly increasing order. -/
theorem pairwise_vertices (g : Digraph) : g.vertices.Pairwise (· < ·) := by
  refine Std.ExtTreeMap.ordered_keys.imp ?_
  intro a b h
  exact Text.lt_of_compare h

/-! ## The search -/

/-- What the search finds is reached from where it starts. -/
theorem reaches_of_mem_reach {seen : PathSet} {todo : List Text} {w : Text}
    (hw : w ∈ g.reach seen todo) : w ∈ seen ∨ ∃ v ∈ todo, g.Reaches v w := by
  fun_induction reach g seen todo with
  | case1 seen => exact Or.inl hw
  | case2 seen v todo hv ih =>
      rcases ih hw with hseen | ⟨u, hu, huw⟩
      · rcases Std.ExtTreeSet.mem_insert.mp hseen with heq | hseen
        · obtain rfl := Std.LawfulEqCmp.eq_of_compare heq
          exact Or.inr ⟨v, List.mem_cons_self, Relation.ReflTransGen.refl⟩
        · exact Or.inl hseen
      · rcases List.mem_append.mp hu with hu | hu
        · -- the way starts with the edge from `v` to `u`
          have hedge : g.Edge v u := mem_next.mp hu
          exact Or.inr ⟨v, List.mem_cons_self, Relation.ReflTransGen.head hedge huw⟩
        · exact Or.inr ⟨u, List.mem_cons_of_mem v hu, huw⟩
  | case3 seen v todo hv ih =>
      rcases ih hw with hseen | ⟨u, hu, huw⟩
      · exact Or.inl hseen
      · exact Or.inr ⟨u, List.mem_cons_of_mem v hu, huw⟩

/-- Every edge that leaves the set ends in it or among the vertices still to visit. -/
def Covered (g : Digraph) (seen : PathSet) (todo : List Text) : Prop :=
  ∀ a ∈ seen, ∀ b, g.Edge a b → b ∈ seen ∨ b ∈ todo

/-- A vertex that is visited is put in the set, and its successors are visited next. -/
theorem Covered.visit {seen : PathSet} {todo : List Text} {v : Text}
    (h : g.Covered seen (v :: todo)) : g.Covered (seen.insert v) (g.next v ++ todo) := by
  intro a ha b hab
  rw [Std.ExtTreeSet.mem_insert] at ha
  rcases ha with heq | ha
  · obtain rfl := Std.LawfulEqCmp.eq_of_compare heq
    exact Or.inr (List.mem_append_left todo (mem_next.mpr hab))
  · rcases h a ha b hab with hb | hb
    · exact Or.inl (Std.ExtTreeSet.mem_insert.mpr (Or.inr hb))
    · rcases List.mem_cons.mp hb with rfl | hb
      · exact Or.inl Std.ExtTreeSet.mem_insert_self
      · exact Or.inr (List.mem_append_right _ hb)

variable (hends : ∀ a b, g.Edge a b → g.hasVertex b = true)

include hends in
/-- The search ends with a set that no edge leaves, with all that it was to visit in it. -/
theorem reach_closed {seen : PathSet} {todo : List Text} (h : g.Covered seen todo) :
    g.Covered (g.reach seen todo) [] ∧ (∀ v ∈ seen, v ∈ g.reach seen todo) ∧
      ∀ v ∈ todo, g.hasVertex v = true → v ∈ g.reach seen todo := by
  fun_induction reach g seen todo with
  | case1 seen => exact ⟨h, fun v hv => hv, by simp⟩
  | case2 seen v todo hv ih =>
      obtain ⟨hclosed, hseen, htodo⟩ := ih h.visit
      refine ⟨hclosed, ?_, ?_⟩
      · intro w hw
        exact hseen w (Std.ExtTreeSet.mem_insert.mpr (Or.inr hw))
      · intro w hw hvertex
        rcases List.mem_cons.mp hw with rfl | hw
        · exact hseen w Std.ExtTreeSet.mem_insert_self
        · exact htodo w (List.mem_append_right _ hw) hvertex
  | case3 seen v todo hv ih =>
      -- a vertex that is passed over has been visited before
      have hskip : g.hasVertex v = true → v ∈ seen := by
        intro hvertex
        by_contra hnot
        rw [Std.ExtTreeSet.mem_iff_contains, Bool.not_eq_true] at hnot
        exact hv ⟨hvertex, hnot⟩
      have hcovered : g.Covered seen todo := by
        intro a ha b hab
        rcases h a ha b hab with hb | hb
        · exact Or.inl hb
        · rcases List.mem_cons.mp hb with rfl | hb
          · exact Or.inl (hskip (hends a b hab))
          · exact Or.inr hb
      obtain ⟨hclosed, hseen, htodo⟩ := ih hcovered
      refine ⟨hclosed, hseen, ?_⟩
      intro w hw hvertex
      rcases List.mem_cons.mp hw with rfl | hw
      · exact hseen w (hskip hvertex)
      · exact htodo w hw hvertex

include hends in
/-- **The search from a vertex finds exactly what the vertex reaches.** -/
theorem mem_reach_iff {v w : Text} (hv : g.hasVertex v = true) :
    w ∈ g.reach ∅ [v] ↔ g.Reaches v w := by
  have hstart : g.Covered ∅ [v] := fun a ha => absurd ha Std.ExtTreeSet.not_mem_empty
  obtain ⟨hclosed, -, htodo⟩ := reach_closed hends hstart
  constructor
  · intro hw
    rcases reaches_of_mem_reach hw with hnone | ⟨u, hu, huw⟩
    · exact absurd hnone Std.ExtTreeSet.not_mem_empty
    · rwa [List.mem_singleton.mp hu] at huw
  · intro hvw
    induction hvw with
    | refl => exact htodo v List.mem_cons_self hv
    | tail _ hedge ih =>
        rcases hclosed _ ih _ hedge with hin | hnone
        · exact hin
        · cases hnone

/-! ## Components -/

/-- The vertices that a vertex reaches and that reach it back, in increasing order. -/
def component (g : Digraph) (v : Text) : List Text :=
  g.vertices.filter fun w => (g.reach ∅ [v]).contains w && (g.reach ∅ [w]).contains v

/-- The group of a vertex in the table of all searches is its component. -/
theorem groupOf_reachTable (g : Digraph) (v : Text) :
    groupOf g.reachTable (v, g.reach ∅ [v]) = g.component v := by
  rw [groupOf, reachTable, List.filter_map, List.map_map, component]
  exact List.map_id _

theorem pairwise_component (g : Digraph) (v : Text) : (g.component v).Pairwise (· < ·) :=
  g.pairwise_vertices.sublist List.filter_sublist

include hends in
theorem mem_component {v w : Text} (hv : g.hasVertex v = true) :
    w ∈ g.component v ↔ g.hasVertex w = true ∧ g.Reaches v w ∧ g.Reaches w v := by
  rw [component, List.mem_filter, Bool.and_eq_true, ← Std.ExtTreeSet.mem_iff_contains,
    ← Std.ExtTreeSet.mem_iff_contains, mem_vertices, mem_reach_iff hends hv]
  constructor
  · rintro ⟨hw, hvw, hwv⟩
    exact ⟨hw, hvw, (mem_reach_iff hends hw).mp hwv⟩
  · rintro ⟨hw, hvw, hwv⟩
    exact ⟨hw, hvw, (mem_reach_iff hends hw).mpr hwv⟩

include hends in
/-- **Members of one component have the same component.** -/
theorem component_eq {v w : Text} (hv : g.hasVertex v = true) (hw : w ∈ g.component v) :
    g.component w = g.component v := by
  obtain ⟨hvertex, hvw, hwv⟩ := (mem_component hends hv).mp hw
  have hiff : ∀ u ∈ g.vertices, u ∈ g.component w ↔ u ∈ g.component v := by
    intro u _
    rw [mem_component hends hvertex, mem_component hends hv]
    constructor
    · rintro ⟨hu, hwu, huw⟩
      exact ⟨hu, hvw.trans hwu, huw.trans hwv⟩
    · rintro ⟨hu, hvu, huv⟩
      exact ⟨hu, hwv.trans hvu, huv.trans hvw⟩
  refine List.filter_congr fun u hu => ?_
  have hu' := hiff u hu
  simp only [component, List.mem_filter, hu, true_and] at hu'
  exact Bool.eq_iff_iff.mpr hu'

end Digraph

/-! ## The groups that are reported -/

namespace ImportGraph

variable {g : ImportGraph}

/-- A component is reported at its first vertex, if it has a second one. -/
theorem cycles_eq (g : ImportGraph) :
    g.cycles = g.graph.vertices.filterMap fun v =>
      if 2 ≤ (g.graph.component v).length ∧ (g.graph.component v).head? = some v then
        some (g.graph.component v) else none := by
  rw [cycles, List.filterMap_map]
  simp only [Digraph.reachTable]
  rw [List.filterMap_map]
  refine List.filterMap_congr fun v _ => ?_
  simp only [Function.comp_apply]
  rw [← Digraph.groupOf_reachTable]
  rfl

theorem mem_cycles {group : List Text} :
    group ∈ g.cycles ↔ ∃ v, g.graph.hasVertex v = true ∧ g.graph.component v = group ∧
      2 ≤ group.length ∧ group.head? = some v := by
  rw [cycles_eq, List.mem_filterMap]
  constructor
  · rintro ⟨v, hv, h⟩
    split_ifs at h with hc
    obtain rfl := Option.some.inj h
    exact ⟨v, Digraph.mem_vertices.mp hv, rfl, hc⟩
  · rintro ⟨v, hv, rfl, hc⟩
    exact ⟨v, Digraph.mem_vertices.mpr hv, if_pos hc⟩

/-- Two members make a group. -/
theorem two_le_length_of_mem {l : List Text} {a b : Text} (ha : a ∈ l) (hb : b ∈ l)
    (hne : a ≠ b) : 2 ≤ l.length := by
  match l with
  | [] => cases ha
  | [x] =>
      rw [List.mem_singleton] at ha hb
      exact absurd (ha.trans hb.symm) hne
  | x :: y :: l => simp

section Components

variable (hends : ∀ a b, g.graph.Edge a b → g.graph.hasVertex b = true)

include hends in
/-- A component with two members is reported. -/
theorem component_mem_cycles {v : Text} (hv : g.graph.hasVertex v = true)
    (hlen : 2 ≤ (g.graph.component v).length) : g.graph.component v ∈ g.cycles := by
  -- it is reported at its first member, whose component it is
  obtain ⟨u, hu⟩ : ∃ u, (g.graph.component v).head? = some u := by
    rw [← Option.isSome_iff_exists, List.isSome_head?]
    intro hnil
    rw [hnil] at hlen
    simp at hlen
  have hmem : u ∈ g.graph.component v := List.mem_of_mem_head? hu
  have hvertex := ((Digraph.mem_component hends hv).mp hmem).1
  have heq := Digraph.component_eq hends hv hmem
  exact mem_cycles.mpr ⟨u, hvertex, heq, hlen, hu⟩

include hends in
/-- Different members of one group are those that reach each other. -/
theorem exists_group_iff {a b : Text} (hne : a ≠ b) :
    (∃ group ∈ g.cycles, a ∈ group ∧ b ∈ group)
      ↔ g.graph.Reaches a b ∧ g.graph.Reaches b a := by
  constructor
  · rintro ⟨group, hgroup, ha, hb⟩
    obtain ⟨v, hv, rfl, -⟩ := mem_cycles.mp hgroup
    obtain ⟨-, hva, hav⟩ := (Digraph.mem_component hends hv).mp ha
    obtain ⟨-, hvb, hbv⟩ := (Digraph.mem_component hends hv).mp hb
    exact ⟨hav.trans hvb, hbv.trans hva⟩
  · rintro ⟨hab, hba⟩
    -- a way to another vertex begins with an edge
    have hvertex : ∀ {x y : Text}, x ≠ y → g.graph.Reaches x y → g.graph.hasVertex x = true := by
      intro x y hxy hway
      rcases Relation.ReflTransGen.cases_head hway with heq | ⟨z, hedge, -⟩
      · exact absurd heq hxy
      · exact Digraph.hasVertex_of_hasEdge hedge
    have ha := hvertex hne hab
    have hb := hvertex hne.symm hba
    have haMem : a ∈ g.graph.component a :=
      (Digraph.mem_component hends ha).mpr ⟨ha, Relation.ReflTransGen.refl,
        Relation.ReflTransGen.refl⟩
    have hbMem : b ∈ g.graph.component a :=
      (Digraph.mem_component hends ha).mpr ⟨hb, hab, hba⟩
    have hlen := two_le_length_of_mem haMem hbMem hne
    exact ⟨_, component_mem_cycles hends ha hlen, haMem, hbMem⟩

/-- The groups are in the order of their first members. -/
theorem pairwise_head_cycles (g : ImportGraph) :
    g.cycles.Pairwise fun group group' =>
      ∃ x y, group.head? = some x ∧ group'.head? = some y ∧ x < y := by
  rw [cycles_eq, List.pairwise_filterMap]
  refine g.graph.pairwise_vertices.imp ?_
  intro u v huv group hgroup group' hgroup'
  split_ifs at hgroup hgroup' with hu hv
  obtain rfl := Option.some.inj hgroup
  obtain rfl := Option.some.inj hgroup'
  exact ⟨u, v, hu.2, hv.2, huv⟩

include hends in
/-- Groups with different first members have no common member. -/
theorem pairwise_disjoint_cycles : g.cycles.Pairwise List.Disjoint := by
  refine (g.pairwise_head_cycles).imp_of_mem ?_
  rintro group group' hgroup hgroup' ⟨x, y, hx, hy, hxy⟩ z hz hz'
  obtain ⟨u, hu, rfl, -⟩ := mem_cycles.mp hgroup
  obtain ⟨v, hv, rfl, -⟩ := mem_cycles.mp hgroup'
  -- both groups are the component of the common member
  have heq : g.graph.component u = g.graph.component v :=
    (Digraph.component_eq hends hu hz).symm.trans (Digraph.component_eq hends hv hz')
  rw [heq, hy] at hx
  rw [Option.some.inj hx] at hxy
  exact List.lt_irrefl _ hxy

end Components

/-! ## Import graphs -/

/-- The document `a` imports the stylesheet `b`. -/
def Imports (g : ImportGraph) (a b : Text) : Prop := b ∈ g.dependencies a

theorem edge_eq_imports {E : Text → Text → Prop} (h : g.Represents E) :
    g.graph.Edge = g.Imports := by
  funext a b
  rw [Digraph.Edge, Imports, mem_dependencies, eq_iff_iff, h.edges, h.imported]

/-- **Cycle reports are exact**, whatever changes led to the graph. Two different paths are in one
group if and only if each reaches the other along imports. Each group has at least two paths, in
strictly increasing order; no path is in two groups; every path on a cycle is in a group; and the
groups are in the strict order of their first paths. -/
theorem cycles_components (edits : List ImportEdit) :
    (∀ a b, a ≠ b → ((∃ group ∈ (after edits).cycles, a ∈ group ∧ b ∈ group)
        ↔ Relation.TransGen (after edits).Imports a b ∧
          Relation.TransGen (after edits).Imports b a)) ∧
      (∀ group ∈ (after edits).cycles, 2 ≤ group.length ∧ group.Pairwise (· < ·)) ∧
      (after edits).cycles.Pairwise List.Disjoint ∧
      (∀ a, Relation.TransGen (after edits).Imports a a →
        ∃ group ∈ (after edits).cycles, a ∈ group) ∧
      (after edits).cycles.Pairwise fun group group' =>
        ∃ x y, group.head? = some x ∧ group'.head? = some y ∧ x < y := by
  have h := represents_after edits
  have hedges := edge_eq_imports h
  have hends : ∀ a b, (after edits).graph.Edge a b → (after edits).graph.hasVertex b = true := by
    intro a b hab
    exact (h.vertices a b ((h.edges a b).mp hab)).2
  have hreaches : ∀ {a b : Text}, a ≠ b →
      ((after edits).graph.Reaches a b ↔ Relation.TransGen (after edits).Imports a b) := by
    intro a b hne
    rw [Digraph.Reaches, hedges, Relation.reflTransGen_iff_eq_or_transGen]
    simp [hne.symm]
  refine ⟨?_, ?_, pairwise_disjoint_cycles hends, ?_, pairwise_head_cycles _⟩
  · intro a b hne
    rw [exists_group_iff hends hne, hreaches hne, hreaches hne.symm]
  · intro group hgroup
    obtain ⟨v, -, rfl, hlen, -⟩ := mem_cycles.mp hgroup
    exact ⟨hlen, Digraph.pairwise_component _ v⟩
  · intro a hcycle
    -- no document imports itself, so the way around leads through another one
    obtain ⟨b, hab, hba⟩ := Relation.TransGen.head'_iff.mp hcycle
    rw [← hedges] at hab hba
    have hne : a ≠ b := by
      rintro rfl
      exact h.irreflexive a ((h.edges a a).mp hab)
    have hmutual := (exists_group_iff hends hne).mpr ⟨Relation.ReflTransGen.single hab, hba⟩
    obtain ⟨group, hgroup, ha, -⟩ := hmutual
    exact ⟨group, hgroup, ha⟩

end ImportGraph

end StyleIndex
