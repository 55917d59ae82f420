import Mathlib.Tactic
import StyleIndex.Proofs.ImportGraph.Update

set_option autoImplicit false

/-! # The import graph as a map

The import graph keeps every edge three times: in the graph proper, in the index of the imported
stylesheets and in the index of the importing documents. This file compares all three with a plain
map from documents to sets of stylesheets, along any row of updates, removals and clearings
(`after_represents`).

What the operations of a directed graph do is said first, one lemma for its vertices and one for
its edges. Nothing else about directed graphs is used. `Represents E g` then says that `E` is the
edge relation of all three parts of `g`; taking away and adding one edge change `E` by that edge.
The vertex of a document must outlive the loop that takes away its edges, or no edge could be
added behind it. It does, because the loop drops only ends of edges and no document imports
itself.
-/

namespace StyleIndex

/-! ## Indexes without empty entries -/

namespace PathIndex

/-- The index holds no empty entry. -/
def Tight (i : PathIndex) : Prop := ∀ (a : Text) (s : PathSet), i[a]? = some s → s.isEmpty = false

variable {i : PathIndex}

theorem tight_empty : Tight ∅ := by
  intro a s h
  simp at h

/-- Storing a set that is not empty leaves no empty entry. -/
theorem Tight.insert (h : i.Tight) (a : Text) {s : PathSet} (hs : s.isEmpty = false) :
    PathIndex.Tight (Std.ExtTreeMap.insert i a s) := by
  intro x s' hs'
  rw [Std.ExtTreeMap.getElem?_insert] at hs'
  split_ifs at hs'
  · rwa [← Option.some.inj hs']
  · exact h x s' hs'

theorem Tight.link (h : i.Tight) (a b : Text) : (i.link a b).Tight := by
  apply h.insert a
  rw [Std.ExtTreeSet.isEmpty_eq_false_iff]
  exact Std.ExtTreeSet.ne_empty_of_mem (a := b) Std.ExtTreeSet.mem_insert_self

theorem Tight.unlink (h : i.Tight) (a b : Text) : (i.unlink a b).Tight := by
  rw [PathIndex.unlink]
  split_ifs with hempty
  · intro x s hs
    rw [Std.ExtTreeMap.getElem?_erase] at hs
    split_ifs at hs
    exact h x s hs
  · exact h.insert a (by simpa using hempty)

/-- A path with related paths has an entry. -/
theorem contains_of_mem_targets {a b : Text} (h : b ∈ i.targets a) : i.contains a = true := by
  by_contra hnot
  have hempty : i.targets a = ∅ := by
    apply Std.ExtTreeMap.getD_eq_fallback
    rwa [Std.ExtTreeMap.mem_iff_contains]
  rw [hempty] at h
  exact Std.ExtTreeSet.not_mem_empty h

theorem related_iff {a b : Text} : i.related a b = true ↔ b ∈ i.targets a :=
  Std.ExtTreeSet.mem_iff_contains.symm

end PathIndex

/-! ## Vertices and edges of a directed graph -/

theorem beq_compare_iff {a b : Text} : (compare a b == .eq) = true ↔ b = a := by
  rw [beq_iff_eq, Std.LawfulEqCmp.compare_eq_iff_eq, eq_comm]

namespace Digraph

variable (g : Digraph) (v a b w x y : Text)

theorem hasVertex_addVertex :
    (g.addVertex v).hasVertex w = true ↔ w = v ∨ g.hasVertex w = true := by
  rw [addVertex]
  split_ifs with h
  · constructor
    · exact Or.inr
    · rintro (rfl | hw)
      · exact h
      · exact hw
  · rw [hasVertex, Std.ExtTreeMap.contains_insert, Bool.or_eq_true, beq_compare_iff]
    rfl

theorem hasEdge_addVertex : (g.addVertex v).hasEdge x y = true ↔ g.hasEdge x y = true := by
  rw [addVertex]
  split_ifs with h
  · rfl
  · rw [hasEdge, hasEdge, PathIndex.related_iff, PathIndex.related_iff, PathIndex.targets,
      Std.ExtTreeMap.getD_insert]
    split_ifs with hx
    · -- a new vertex had no edges
      obtain rfl := Std.LawfulEqCmp.eq_of_compare hx
      have hnone : y ∉ g.successors.targets v :=
        fun hy => h (PathIndex.contains_of_mem_targets hy)
      exact iff_of_false Std.ExtTreeSet.not_mem_empty hnone
    · rfl

theorem hasVertex_addEdge : (g.addEdge a b).hasVertex w = true ↔ g.hasVertex w = true := by
  rw [addEdge]
  split_ifs with h
  · have ha : g.hasVertex a = true := (Bool.and_eq_true_iff.mp h).1
    rw [hasVertex, PathIndex.link, Std.ExtTreeMap.contains_insert, Bool.or_eq_true,
      beq_compare_iff]
    constructor
    · rintro (rfl | hw)
      · exact ha
      · exact hw
    · exact Or.inr
  · rfl

variable {g a b} in
theorem hasEdge_addEdge (ha : g.hasVertex a = true) (hb : g.hasVertex b = true) :
    (g.addEdge a b).hasEdge x y = true ↔ (x = a ∧ y = b) ∨ g.hasEdge x y = true := by
  rw [addEdge, if_pos (by rw [ha, hb]; rfl), hasEdge, hasEdge, PathIndex.related_iff,
    PathIndex.related_iff]
  exact PathIndex.mem_targets_link _ a b x y

theorem hasVertex_removeEdge : (g.removeEdge a b).hasVertex w = true ↔ g.hasVertex w = true := by
  rw [removeEdge]
  split_ifs with h
  · rw [hasVertex, Std.ExtTreeMap.contains_insert, Bool.or_eq_true, beq_compare_iff]
    constructor
    · rintro (rfl | hw)
      · exact h
      · exact hw
    · exact Or.inr
  · rfl

/-- An edge leaves a vertex. -/
theorem hasVertex_of_hasEdge {g : Digraph} {a b : Text} (h : g.hasEdge a b = true) :
    g.hasVertex a = true :=
  PathIndex.contains_of_mem_targets (PathIndex.related_iff.mp h)

theorem hasEdge_removeEdge :
    (g.removeEdge a b).hasEdge x y = true ↔ g.hasEdge x y = true ∧ ¬(x = a ∧ y = b) := by
  rw [removeEdge]
  split_ifs with h
  · rw [hasEdge, hasEdge, PathIndex.related_iff, PathIndex.related_iff, PathIndex.targets,
      Std.ExtTreeMap.getD_insert]
    split_ifs with hx
    · obtain rfl := Std.LawfulEqCmp.eq_of_compare hx
      rw [Std.ExtTreeSet.mem_erase, ne_eq, Std.LawfulEqCmp.compare_eq_iff_eq]
      simp only [true_and, and_comm, eq_comm]
    · have hne : x ≠ a := fun hxa => hx (by rw [hxa]; exact Std.ReflCmp.compare_self)
      simp only [hne, false_and, not_false_eq_true, and_true]
      rfl
  · have hnone : g.hasEdge x y = true → ¬(x = a ∧ y = b) := by
      rintro he ⟨rfl, rfl⟩
      exact h (hasVertex_of_hasEdge he)
    exact ⟨fun he => ⟨he, hnone he⟩, And.left⟩

/-- An edge touches a vertex if it leaves or enters it. -/
theorem hasEdgeAt_iff :
    g.hasEdgeAt v = true ↔ ∃ w, g.hasEdge v w = true ∨ g.hasEdge w v = true := by
  rw [hasEdgeAt, Bool.or_eq_true, List.any_eq_true]
  constructor
  · rintro (hleaves | ⟨w, -, hw⟩)
    · have hne : ¬ g.successors.targets v = ∅ :=
        Std.ExtTreeSet.isEmpty_eq_false_iff.mp (by simpa using hleaves)
      rw [Std.ExtTreeSet.eq_empty_iff_forall_not_mem, not_forall] at hne
      obtain ⟨w, hw⟩ := hne
      exact ⟨w, Or.inl (PathIndex.related_iff.mpr (not_not.mp hw))⟩
    · exact ⟨w, Or.inr hw⟩
  · rintro ⟨w, hw | hw⟩
    · have hne := Std.ExtTreeSet.ne_empty_of_mem (PathIndex.related_iff.mp hw)
      left
      rw [Std.ExtTreeSet.isEmpty_eq_false_iff.mpr hne]
      rfl
    · refine Or.inr ⟨w, ?_, hw⟩
      rw [vertices, Std.ExtTreeMap.mem_keys, Std.ExtTreeMap.mem_iff_contains]
      exact hasVertex_of_hasEdge hw

theorem hasVertex_removeVertex :
    (g.removeVertex v).hasVertex w = true
      ↔ g.hasVertex w = true ∧ (w = v → g.hasEdgeAt v = true) := by
  rw [removeVertex]
  split_ifs with h
  · exact ⟨fun hw => ⟨hw, fun _ => h⟩, And.left⟩
  · rw [hasVertex, Std.ExtTreeMap.contains_erase, Bool.and_eq_true, bne, Bool.not_eq_true',
      ← Bool.not_eq_true, beq_compare_iff]
    constructor
    · rintro ⟨hne, hw⟩
      exact ⟨hw, fun hwv => absurd hwv hne⟩
    · rintro ⟨hw, hne⟩
      exact ⟨fun hwv => h (hne hwv), hw⟩

theorem hasEdge_removeVertex :
    (g.removeVertex v).hasEdge x y = true ↔ g.hasEdge x y = true := by
  rw [removeVertex]
  split_ifs with h
  · rfl
  · rw [hasEdge, hasEdge, PathIndex.related_iff, PathIndex.related_iff, PathIndex.targets,
      Std.ExtTreeMap.getD_erase]
    split_ifs with hx
    · -- the vertex was removed because no edge left it
      obtain rfl := Std.LawfulEqCmp.eq_of_compare hx
      have hnone : y ∉ g.successors.targets v := by
        intro hy
        exact h ((hasEdgeAt_iff g v).mpr ⟨y, Or.inl (PathIndex.related_iff.mpr hy)⟩)
      exact iff_of_false Std.ExtTreeSet.not_mem_empty hnone
    · rfl

end Digraph

/-! ## One edge at a time -/

/-- The relation `E` holds the edges of all three parts of the import graph. -/
structure ImportGraph.Represents (E : Text → Text → Prop) (g : ImportGraph) : Prop where
  imported : ∀ a b, b ∈ g.imported.targets a ↔ E a b
  importing : ∀ a b, a ∈ g.importing.targets b ↔ E a b
  edges : ∀ a b, g.graph.hasEdge a b = true ↔ E a b
  vertices : ∀ a b, E a b → g.graph.hasVertex a = true ∧ g.graph.hasVertex b = true
  imported_tight : g.imported.Tight
  importing_tight : g.importing.Tight
  irreflexive : ∀ a, ¬ E a a

namespace ImportGraph

variable {E E' : Text → Text → Prop} {g : ImportGraph} {path t : Text}

theorem represents_empty : Represents (fun _ _ => False) empty where
  imported := by
    intro a b
    exact iff_of_false Std.ExtTreeSet.not_mem_empty id
  importing := by
    intro a b
    exact iff_of_false Std.ExtTreeSet.not_mem_empty id
  edges := by
    intro a b
    rw [Digraph.hasEdge, PathIndex.related_iff]
    exact iff_of_false Std.ExtTreeSet.not_mem_empty id
  vertices := fun a b h => h.elim
  imported_tight := PathIndex.tight_empty
  importing_tight := PathIndex.tight_empty
  irreflexive := fun a h => h

theorem Represents.congr (h : g.Represents E) (hE : ∀ a b, E' a b ↔ E a b) :
    g.Represents E' := by
  have heq : E' = E := by
    funext a b
    exact propext (hE a b)
  rwa [heq]

theorem Represents.addVertex (h : g.Represents E) (v : Text) :
    Represents E { g with graph := g.graph.addVertex v } where
  imported := h.imported
  importing := h.importing
  edges := fun a b => (g.graph.hasEdge_addVertex v a b).trans (h.edges a b)
  vertices := by
    intro a b hab
    obtain ⟨ha, hb⟩ := h.vertices a b hab
    exact ⟨(g.graph.hasVertex_addVertex v a).mpr (Or.inr ha),
      (g.graph.hasVertex_addVertex v b).mpr (Or.inr hb)⟩
  imported_tight := h.imported_tight
  importing_tight := h.importing_tight
  irreflexive := h.irreflexive

/-- A vertex is dropped only if no edge touches it. -/
theorem Represents.prune (h : g.Represents E) (v : Text) : (g.prune v).Represents E := by
  rw [ImportGraph.prune]
  split_ifs
  · refine ⟨h.imported, h.importing, ?_, ?_, h.imported_tight, h.importing_tight, h.irreflexive⟩
    · intro a b
      exact (g.graph.hasEdge_removeVertex v a b).trans (h.edges a b)
    · intro a b hab
      obtain ⟨ha, hb⟩ := h.vertices a b hab
      have hedge := (h.edges a b).mpr hab
      constructor
      · refine (g.graph.hasVertex_removeVertex v a).mpr ⟨ha, ?_⟩
        rintro rfl
        exact (g.graph.hasEdgeAt_iff a).mpr ⟨b, Or.inl hedge⟩
      · refine (g.graph.hasVertex_removeVertex v b).mpr ⟨hb, ?_⟩
        rintro rfl
        exact (g.graph.hasEdgeAt_iff b).mpr ⟨a, Or.inr hedge⟩
  · exact h

theorem hasVertex_prune {v w : Text} (hne : w ≠ v) (hw : g.graph.hasVertex w = true) :
    (g.prune v).graph.hasVertex w = true := by
  rw [prune]
  split_ifs
  · exact (g.graph.hasVertex_removeVertex v w).mpr ⟨hw, fun hwv => absurd hwv hne⟩
  · exact hw

/-- **Taking away one edge** takes it from all three parts. -/
theorem Represents.removeEdge (h : g.Represents E) (path t : Text) :
    (g.removeEdge path t).Represents fun a b => E a b ∧ ¬(a = path ∧ b = t) := by
  apply Represents.prune
  refine ⟨?_, ?_, ?_, ?_, h.imported_tight.unlink path t, h.importing_tight.unlink t path, ?_⟩
  · intro a b
    rw [PathIndex.mem_targets_unlink, h.imported]
  · intro a b
    rw [PathIndex.mem_targets_unlink, h.importing, and_comm (a := b = t)]
  · intro a b
    rw [Digraph.hasEdge_removeEdge, h.edges]
  · rintro a b ⟨hab, -⟩
    obtain ⟨ha, hb⟩ := h.vertices a b hab
    exact ⟨(g.graph.hasVertex_removeEdge path t a).mpr ha,
      (g.graph.hasVertex_removeEdge path t b).mpr hb⟩
  · rintro a ⟨ha, -⟩
    exact h.irreflexive a ha

/-- The document whose edge is taken away keeps its vertex. -/
theorem hasVertex_removeEdge (hne : path ≠ t) (hpath : g.graph.hasVertex path = true) :
    (g.removeEdge path t).graph.hasVertex path = true := by
  apply hasVertex_prune hne
  exact (g.graph.hasVertex_removeEdge path t path).mpr hpath

/-- **Adding one edge** behind a vertex adds it to all three parts. -/
theorem Represents.addEdge (h : g.Represents E) (hpath : g.graph.hasVertex path = true)
    (hne : path ≠ t) :
    (g.addEdge path t).Represents fun a b => (a = path ∧ b = t) ∨ E a b := by
  have hpath' := (g.graph.hasVertex_addVertex t path).mpr (Or.inr hpath)
  have ht := (g.graph.hasVertex_addVertex t t).mpr (Or.inl rfl)
  have hkeep : ∀ v, g.graph.hasVertex v = true → (g.addEdge path t).graph.hasVertex v = true := by
    intro v hv
    refine (Digraph.hasVertex_addEdge _ path t v).mpr ?_
    exact (g.graph.hasVertex_addVertex t v).mpr (Or.inr hv)
  refine ⟨?_, ?_, ?_, ?_, h.imported_tight.link path t, h.importing_tight.link t path, ?_⟩
  · intro a b
    rw [mem_targets_addEdge, h.imported]
  · intro a b
    rw [ImportGraph.addEdge, PathIndex.mem_targets_link, h.importing, and_comm]
  · intro a b
    rw [ImportGraph.addEdge, Digraph.hasEdge_addEdge _ _ hpath' ht, Digraph.hasEdge_addVertex,
      h.edges]
  · rintro a b (⟨rfl, rfl⟩ | hab)
    · exact ⟨hkeep a hpath, (Digraph.hasVertex_addEdge _ a b b).mpr ht⟩
    · obtain ⟨ha, hb⟩ := h.vertices a b hab
      exact ⟨hkeep a ha, hkeep b hb⟩
  · rintro a (⟨rfl, rfl⟩ | ha)
    · exact hne rfl
    · exact h.irreflexive a ha

theorem hasVertex_addEdge (hpath : g.graph.hasVertex path = true) :
    (g.addEdge path t).graph.hasVertex path = true := by
  refine (Digraph.hasVertex_addEdge _ path t path).mpr ?_
  exact (g.graph.hasVertex_addVertex t path).mpr (Or.inr hpath)

/-! ## Rows of edges -/

/-- Taking edges away one after another. -/
theorem Represents.foldl_removeEdge (path : Text) (ts : List Text) :
    ∀ {g : ImportGraph} {E : Text → Text → Prop}, g.Represents E →
      (ts.foldl (fun g t => g.removeEdge path t) g).Represents
        fun a b => E a b ∧ ¬(a = path ∧ b ∈ ts) := by
  induction ts with
  | nil =>
      intro g E h
      refine h.congr ?_
      simp
  | cons t ts ih =>
      intro g E h
      refine (ih (h.removeEdge path t)).congr ?_
      intro a b
      rw [List.mem_cons]
      tauto

theorem hasVertex_foldl_removeEdge {ts : List Text} (hts : path ∉ ts) :
    ∀ {g : ImportGraph}, g.graph.hasVertex path = true →
      (ts.foldl (fun g t => g.removeEdge path t) g).graph.hasVertex path = true := by
  induction ts with
  | nil =>
      intro g hpath
      exact hpath
  | cons t ts ih =>
      intro g hpath
      rw [List.mem_cons, not_or] at hts
      exact ih hts.2 (hasVertex_removeEdge hts.1 hpath)

/-- Adding edges one after another. -/
theorem Represents.foldl_addEdge {ts : List Text} (hts : path ∉ ts) :
    ∀ {g : ImportGraph} {E : Text → Text → Prop}, g.Represents E →
      g.graph.hasVertex path = true →
      (ts.foldl (fun g t => g.addEdge path t) g).Represents
        fun a b => (a = path ∧ b ∈ ts) ∨ E a b := by
  induction ts with
  | nil =>
      intro g E h _
      refine h.congr ?_
      simp
  | cons t ts ih =>
      intro g E h hpath
      rw [List.mem_cons, not_or] at hts
      refine (ih hts.2 (h.addEdge hpath hts.1) (hasVertex_addEdge hpath)).congr ?_
      intro a b
      rw [List.mem_cons]
      tauto

end ImportGraph

/-! ## The plain map -/

/-- A map from documents to the sets of stylesheets they import. -/
abbrev ImportMap := Text → Finset Text

/-- A change to what the documents of a workspace import. -/
inductive ImportEdit where
  /-- A document imports the given targets and nothing else. -/
  | update (path : Text) (targets : List Text)
  /-- A document imports nothing. -/
  | remove (path : Text)
  /-- No document imports anything. -/
  | clear

namespace ImportEdit

/-- The change of the import graph. -/
def onGraph (g : ImportGraph) : ImportEdit → ImportGraph
  | .update path targets => g.update path targets
  | .remove path => g.remove path
  | .clear => .empty

/-- The change of the plain map. No document imports itself. -/
def onMap (m : ImportMap) : ImportEdit → ImportMap
  | .update path targets => Function.update m path (targets.toFinset.erase path)
  | .remove path => Function.update m path ∅
  | .clear => fun _ => ∅

end ImportEdit

/-- The import graph after a row of changes to a new one. -/
def ImportGraph.after (edits : List ImportEdit) : ImportGraph :=
  edits.foldl ImportEdit.onGraph .empty

/-- The plain map after a row of changes to the empty one. -/
def ImportMap.after (edits : List ImportEdit) : ImportMap :=
  edits.foldl ImportEdit.onMap fun _ => ∅

namespace ImportGraph

variable {m : ImportMap} {g : ImportGraph}

theorem Represents.mem_dependencies_iff (h : g.Represents fun a b => b ∈ m a) (p t : Text) :
    t ∈ g.dependencies p ↔ t ∈ m p := by
  rw [mem_dependencies]
  exact h.imported p t

/-- An update first takes away what is no longer imported, then adds what is new. -/
theorem Represents.update (h : g.Represents fun a b => b ∈ m a) (path : Text)
    (targets : List Text) :
    (g.update path targets).Represents
      fun a b => b ∈ ImportEdit.onMap m (.update path targets) a := by
  rw [ImportGraph.update]
  set wanted := targets.filter (· ≠ path) with hwanted
  set stale := (g.dependencies path).filter fun t => !wanted.contains t with hstale
  set fresh := (Text.sortUnique wanted).filter fun t => !(g.dependencies path).contains t
    with hfresh
  have hmem : ∀ t, t ∈ wanted ↔ t ∈ targets ∧ t ≠ path := by
    intro t
    simp [hwanted]
  have hstaleMem : ∀ t, t ∈ stale ↔ t ∈ m path ∧ ¬(t ∈ targets ∧ t ≠ path) := by
    intro t
    simp only [hstale, List.mem_filter, h.mem_dependencies_iff, Bool.not_eq_true',
      List.contains_eq_mem, decide_eq_false_iff_not, hmem]
  have hfreshMem : ∀ t, t ∈ fresh ↔ (t ∈ targets ∧ t ≠ path) ∧ t ∉ m path := by
    intro t
    simp only [hfresh, List.mem_filter, Text.mem_sortUnique, h.mem_dependencies_iff,
      Bool.not_eq_true', List.contains_eq_mem, decide_eq_false_iff_not, hmem]
  -- the document's own vertex is there from the start and is not among the ends dropped
  have hvertex : (g.graph.addVertex path).hasVertex path = true :=
    (g.graph.hasVertex_addVertex path path).mpr (Or.inl rfl)
  have hnotStale : path ∉ stale := fun hp => h.irreflexive path ((hstaleMem path).mp hp).1
  have hnotFresh : path ∉ fresh := fun hp => ((hfreshMem path).mp hp).1.2 rfl
  have hremoved := Represents.foldl_removeEdge path stale (h.addVertex path)
  have hkept := hasVertex_foldl_removeEdge hnotStale
    (g := { g with graph := g.graph.addVertex path }) hvertex
  refine (hremoved.foldl_addEdge hnotFresh hkept).congr ?_
  intro a b
  rw [ImportEdit.onMap, Function.update_apply]
  split_ifs with ha
  · subst ha
    rw [Finset.mem_erase, List.mem_toFinset, hstaleMem, hfreshMem]
    tauto
  · simp only [ha, false_and, not_false_eq_true, and_true, false_or]

theorem Represents.remove (h : g.Represents fun a b => b ∈ m a) (path : Text) :
    (g.remove path).Represents fun a b => b ∈ ImportEdit.onMap m (.remove path) a := by
  apply Represents.prune
  refine (Represents.foldl_removeEdge path (g.dependencies path) h).congr ?_
  intro a b
  rw [ImportEdit.onMap, Function.update_apply, h.mem_dependencies_iff]
  split_ifs with ha
  · subst ha
    simp
  · simp only [ha, false_and, not_false_eq_true, and_true]

/-- **One change of the graph is one change of the map.** -/
theorem Represents.onGraph (h : g.Represents fun a b => b ∈ m a) (e : ImportEdit) :
    (e.onGraph g).Represents fun a b => b ∈ e.onMap m a := by
  cases e with
  | update path targets => exact h.update path targets
  | remove path => exact h.remove path
  | clear =>
      refine represents_empty.congr ?_
      intro a b
      simp [ImportEdit.onMap]

/-- The graph represents the map along every row of changes. -/
theorem represents_after (edits : List ImportEdit) :
    (after edits).Represents fun a b => b ∈ ImportMap.after edits a := by
  suffices hrun : ∀ {g : ImportGraph} {m : ImportMap}, g.Represents (fun a b => b ∈ m a) →
      (edits.foldl ImportEdit.onGraph g).Represents
        fun a b => b ∈ edits.foldl ImportEdit.onMap m a by
    refine hrun (represents_empty.congr ?_)
    simp
  induction edits with
  | nil =>
      intro g m h
      exact h
  | cons e edits ih =>
      intro g m h
      exact ih (h.onGraph e)

theorem mem_dependents {q : Text} {p : Text} :
    p ∈ g.dependents q ↔ p ∈ g.importing.targets q :=
  Std.ExtTreeSet.mem_toList

/-- **The import graph refines a plain map.** After any row of changes, the dependencies of a
document are what the map holds for it, in strictly increasing order; its dependents are the
documents that the map has it for, so the two indexes are inverse to each other, and neither holds
an empty set; and the edges of the graph proper are those of the map, each between two
vertices. -/
theorem after_represents (edits : List ImportEdit) :
    (∀ p, ((after edits).dependencies p).Pairwise (· < ·) ∧
        ∀ t, t ∈ (after edits).dependencies p ↔ t ∈ ImportMap.after edits p) ∧
      (∀ q, ((after edits).dependents q).Pairwise (· < ·) ∧
        ∀ p, p ∈ (after edits).dependents q ↔ q ∈ ImportMap.after edits p) ∧
      (∀ p q, p ∈ (after edits).dependents q ↔ q ∈ (after edits).dependencies p) ∧
      (∀ (p : Text) (s : PathSet), (after edits).imported[p]? = some s → s.isEmpty = false) ∧
      (∀ (q : Text) (s : PathSet), (after edits).importing[q]? = some s → s.isEmpty = false) ∧
      ∀ a b, ((after edits).graph.hasEdge a b = true ↔ b ∈ ImportMap.after edits a) ∧
        ((after edits).graph.hasEdge a b = true →
          (after edits).graph.hasVertex a = true ∧ (after edits).graph.hasVertex b = true) := by
  have h := represents_after edits
  have hdependents : ∀ p q, p ∈ (after edits).dependents q ↔ q ∈ ImportMap.after edits p := by
    intro p q
    rw [mem_dependents]
    exact h.importing p q
  refine ⟨?_, ?_, ?_, h.imported_tight, h.importing_tight, ?_⟩
  · intro p
    exact ⟨pairwise_dependencies _ p, h.mem_dependencies_iff p⟩
  · intro q
    exact ⟨PathSet.pairwise_toList _, fun p => hdependents p q⟩
  · intro p q
    rw [hdependents, h.mem_dependencies_iff]
  · intro a b
    exact ⟨h.edges a b, fun hedge => h.vertices a b ((h.edges a b).mp hedge)⟩

end ImportGraph

end StyleIndex
