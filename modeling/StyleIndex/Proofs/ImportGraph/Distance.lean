import Mathlib.Tactic
import StyleIndex.ImportGraph.Query
import StyleIndex.Proofs.ImportGraph.Components

set_option autoImplicit false

/-! # Graph queries report shortest distances

A query walks the graph level by level. The documents of level `n` are those at distance `n` from
the target, that is those that a chain of `n` edges leads to and no shorter one
(`Distance`). What carries the walk from one level to the next is `AtLevel`: visited are the
documents within the distance reached so far, and the frontier holds those at exactly that
distance. So the new neighbours of the frontier are the documents one edge further away
(`AtLevel.mem_newNeighbours`), and the whole walk reports each document once, with its distance
(`AtLevel.mem_walkLevels`).

`query_distances` says this of the answer to a query, in both directions. A chain of edges read
backwards is a chain of the reversed edges, which makes the two directions dual.
-/

namespace StyleIndex

/-! ## Distances -/

/-- A chain of `n` edges leads from `a` to a path. -/
inductive EdgeChain (E : Text → Text → Prop) (a : Text) : Nat → Text → Prop
  | start : EdgeChain E a 0 a
  | follow {n : Nat} {b c : Text} : EdgeChain E a n b → E b c → EdgeChain E a (n + 1) c

/-- The length of a shortest chain of edges from `a` to `b` is `n`. -/
def Distance (E : Text → Text → Prop) (a b : Text) (n : Nat) : Prop :=
  IsLeast {m | EdgeChain E a m b} n

variable {E : Text → Text → Prop} {a b c target p : Text} {m n : Nat}

theorem edgeChain_zero_iff : EdgeChain E a 0 b ↔ b = a := by
  constructor
  · intro h
    cases h
    rfl
  · rintro rfl
    exact .start

theorem edgeChain_succ_iff : EdgeChain E a (n + 1) c ↔ ∃ b, EdgeChain E a n b ∧ E b c := by
  constructor
  · intro h
    cases h with
    | follow hchain hedge => exact ⟨_, hchain, hedge⟩
  · rintro ⟨b, hchain, hedge⟩
    exact .follow hchain hedge

/-- An edge in front makes a chain longer. -/
theorem EdgeChain.prepend (hedge : E a b) (h : EdgeChain E b n c) : EdgeChain E a (n + 1) c := by
  induction h with
  | start => exact .follow .start hedge
  | follow _ hlast ih => exact .follow ih hlast

/-- A chain read backwards is a chain of the reversed edges. -/
theorem EdgeChain.reverse (h : EdgeChain E a n b) : EdgeChain (fun x y => E y x) b n a := by
  induction h with
  | start => exact .start
  | follow _ hedge ih => exact ih.prepend hedge

theorem edgeChain_reverse_iff : EdgeChain (fun x y => E y x) b n a ↔ EdgeChain E a n b :=
  ⟨EdgeChain.reverse, EdgeChain.reverse⟩

theorem distance_reverse_iff : Distance (fun x y => E y x) b a n ↔ Distance E a b n := by
  simp only [Distance, edgeChain_reverse_iff]

theorem Distance.unique (hm : Distance E a b m) (hn : Distance E a b n) : m = n :=
  IsLeast.unique hm hn

/-- Only the start is at distance zero. -/
theorem distance_zero_iff : Distance E a b 0 ↔ b = a := by
  constructor
  · intro h
    exact edgeChain_zero_iff.mp h.1
  · rintro rfl
    exact ⟨.start, fun _ _ => Nat.zero_le _⟩

/-- The last edge of a shortest chain leaves a path that is one edge nearer. -/
theorem Distance.exists_nearer (h : Distance E a c (n + 1)) : ∃ b, Distance E a b n ∧ E b c := by
  obtain ⟨b, hchain, hedge⟩ := edgeChain_succ_iff.mp h.1
  refine ⟨b, ⟨hchain, ?_⟩, hedge⟩
  intro k hk
  have hle : n + 1 ≤ k + 1 := h.2 (EdgeChain.follow hk hedge)
  omega

/-! ## One level -/

section Level

variable {next : Text → List Text} {visited frontier : List Text}

/-- The loop over the neighbours keeps what it has found and adds what has not been visited. -/
theorem mem_foldl_neighbours (visited neighbours : List Text) : ∀ found : List Text,
    p ∈ neighbours.foldl
        (fun found p => if visited.contains p || found.contains p then found else found ++ [p])
        found
      ↔ p ∈ found ∨ p ∉ visited ∧ p ∈ neighbours := by
  induction neighbours with
  | nil =>
      intro found
      simp
  | cons q rest ih =>
      intro found
      rw [List.foldl_cons, ih]
      split_ifs with hq
      · have hq : q ∈ visited ∨ q ∈ found := by simpa using hq
        constructor
        · rintro (hp | ⟨hp, hrest⟩)
          · exact Or.inl hp
          · exact Or.inr ⟨hp, List.mem_cons_of_mem _ hrest⟩
        · rintro (hp | ⟨hp, hrest⟩)
          · exact Or.inl hp
          · rcases List.mem_cons.mp hrest with rfl | hrest
            · exact Or.inl (hq.resolve_left hp)
            · exact Or.inr ⟨hp, hrest⟩
      · have hq : q ∉ visited ∧ q ∉ found := by simpa using hq
        rw [List.mem_append, List.mem_singleton]
        constructor
        · rintro ((hp | rfl) | ⟨hp, hrest⟩)
          · exact Or.inl hp
          · exact Or.inr ⟨hq.1, List.mem_cons_self⟩
          · exact Or.inr ⟨hp, List.mem_cons_of_mem _ hrest⟩
        · rintro (hp | ⟨hp, hrest⟩)
          · exact Or.inl (Or.inl hp)
          · rcases List.mem_cons.mp hrest with rfl | hrest
            · exact Or.inl (Or.inr rfl)
            · exact Or.inr ⟨hp, hrest⟩

/-- The loop over the neighbours finds nothing twice. -/
theorem nodup_foldl_neighbours (visited neighbours : List Text) : ∀ found : List Text, found.Nodup →
    (neighbours.foldl
      (fun found p => if visited.contains p || found.contains p then found else found ++ [p])
      found).Nodup := by
  induction neighbours with
  | nil =>
      intro found hfound
      exact hfound
  | cons q rest ih =>
      intro found hfound
      rw [List.foldl_cons]
      split_ifs with hq
      · exact ih found hfound
      · have hq : q ∉ visited ∧ q ∉ found := by simpa using hq
        refine ih _ (List.nodup_append.mpr ⟨hfound, List.nodup_singleton q, ?_⟩)
        rintro x hx _ hy rfl
        exact hq.2 (List.mem_singleton.mp hy ▸ hx)

theorem mem_newNeighbours_iff :
    p ∈ newNeighbours next visited frontier ↔ p ∉ visited ∧ ∃ a ∈ frontier, p ∈ next a := by
  rw [newNeighbours, mem_foldl_neighbours, List.mem_flatMap]
  simp

theorem nodup_newNeighbours (next : Text → List Text) (visited frontier : List Text) :
    (newNeighbours next visited frontier).Nodup :=
  nodup_foldl_neighbours visited _ [] List.nodup_nil

/-- The walk after one level, which may have met nothing. -/
theorem walkLevels_succ (next : Text → List Text) (count level : Nat)
    (visited frontier : List Text) :
    walkLevels next (count + 1) level visited frontier
      = (newNeighbours next visited frontier).map (⟨·, level⟩)
        ++ walkLevels next count (level + 1) (visited ++ newNeighbours next visited frontier)
          (newNeighbours next visited frontier) := by
  rw [walkLevels]
  cases hnew : newNeighbours next visited frontier with
  | nil =>
      -- from an empty frontier the walk meets nothing any more
      cases count with
      | zero => rfl
      | succ count => rfl
  | cons q rest => rfl

/-- A walk from `target` before level `n + 1`: visited are the paths within distance `n`, and the
frontier holds those at distance `n`. -/
structure AtLevel (E : Text → Text → Prop) (target : Text) (n : Nat)
    (visited frontier : List Text) : Prop where
  visited : ∀ p, p ∈ visited ↔ ∃ m ≤ n, EdgeChain E target m p
  frontier : ∀ p, p ∈ frontier ↔ Distance E target p n

theorem atLevel_start (E : Text → Text → Prop) (target : Text) :
    AtLevel E target 0 [target] [target] where
  visited := by
    intro p
    simp [edgeChain_zero_iff]
  frontier := by
    intro p
    rw [List.mem_singleton, distance_zero_iff]

/-- A path that has not been visited is as far away as a chain of the next level says. -/
theorem AtLevel.distance (h : AtLevel E target n visited frontier) (hnew : p ∉ visited)
    (hchain : EdgeChain E target (n + 1) p) : Distance E target p (n + 1) := by
  refine ⟨hchain, ?_⟩
  intro k hk
  by_contra hlt
  exact hnew ((h.visited p).mpr ⟨k, by omega, hk⟩)

variable (hnext : ∀ a b, b ∈ next a ↔ E a b)

include hnext in
/-- **The new neighbours of a level are the paths one edge further away.** -/
theorem AtLevel.mem_newNeighbours (h : AtLevel E target n visited frontier) :
    p ∈ newNeighbours next visited frontier ↔ Distance E target p (n + 1) := by
  rw [mem_newNeighbours_iff]
  constructor
  · rintro ⟨hnew, a, ha, hp⟩
    exact h.distance hnew (.follow ((h.frontier a).mp ha).1 ((hnext a p).mp hp))
  · intro hp
    refine ⟨?_, ?_⟩
    · intro hvisited
      obtain ⟨m, hm, hchain⟩ := (h.visited p).mp hvisited
      have hle : n + 1 ≤ m := hp.2 hchain
      omega
    · obtain ⟨a, ha, hedge⟩ := hp.exists_nearer
      exact ⟨a, (h.frontier a).mpr ha, (hnext a p).mpr hedge⟩

include hnext in
/-- **One level.** -/
theorem AtLevel.step (h : AtLevel E target n visited frontier) :
    AtLevel E target (n + 1) (visited ++ newNeighbours next visited frontier)
      (newNeighbours next visited frontier) where
  visited := by
    intro p
    rw [List.mem_append, h.mem_newNeighbours hnext]
    constructor
    · rintro (hp | hp)
      · obtain ⟨m, hm, hchain⟩ := (h.visited p).mp hp
        exact ⟨m, by omega, hchain⟩
      · exact ⟨n + 1, le_rfl, hp.1⟩
    · rintro ⟨m, hm, hchain⟩
      by_cases hp : p ∈ visited
      · exact Or.inl hp
      · have hm : m = n + 1 := by
          by_contra hne
          exact hp ((h.visited p).mpr ⟨m, by omega, hchain⟩)
        exact Or.inr (h.distance hp (hm ▸ hchain))
  frontier := fun _ => h.mem_newNeighbours hnext

/-! ## All levels -/

include hnext in
/-- **The walk reports the paths of its levels, each with its distance.** -/
theorem AtLevel.mem_walkLevels (count : Nat) : ∀ {n : Nat} {visited frontier : List Text},
    AtLevel E target n visited frontier → ∀ r : Reached,
      r ∈ walkLevels next count (n + 1) visited frontier
        ↔ n < r.depth ∧ r.depth ≤ n + count ∧ Distance E target r.path r.depth := by
  induction count with
  | zero =>
      intro n visited frontier _ r
      constructor
      · intro hr
        cases hr
      · rintro ⟨hlow, hhigh, -⟩
        omega
  | succ count ih =>
      intro n visited frontier h r
      rw [walkLevels_succ, List.mem_append, ih (h.step hnext), List.mem_map]
      constructor
      · rintro (⟨p, hp, rfl⟩ | ⟨hlow, hhigh, hdistance⟩)
        · exact ⟨Nat.lt_succ_self n, by simp only; omega, (h.mem_newNeighbours hnext).mp hp⟩
        · exact ⟨by omega, by omega, hdistance⟩
      · rintro ⟨hlow, hhigh, hdistance⟩
        by_cases hfirst : r.depth = n + 1
        · rw [hfirst] at hdistance
          exact Or.inl ⟨r.path, (h.mem_newNeighbours hnext).mpr hdistance, by rw [← hfirst]⟩
        · exact Or.inr ⟨by omega, by omega, hdistance⟩

include hnext in
/-- The walk reports nearer paths first, and no path twice. -/
theorem AtLevel.sorted_walkLevels (count : Nat) : ∀ {n : Nat} {visited frontier : List Text},
    AtLevel E target n visited frontier →
      ((walkLevels next count (n + 1) visited frontier).map Reached.path).Nodup ∧
        (walkLevels next count (n + 1) visited frontier).Pairwise
          (fun x y => x.depth ≤ y.depth) := by
  induction count with
  | zero =>
      intro n visited frontier _
      exact ⟨List.nodup_nil, List.Pairwise.nil⟩
  | succ count ih =>
      intro n visited frontier h
      obtain ⟨hnodup, hsorted⟩ := ih (h.step hnext)
      have hlater := (h.step hnext).mem_walkLevels hnext count
      rw [walkLevels_succ]
      refine ⟨?_, ?_⟩
      · rw [List.map_append, List.map_map]
        refine List.nodup_append.mpr ⟨?_, hnodup, ?_⟩
        · have hpaths : (Reached.path ∘ fun q => Reached.mk q (n + 1)) = id := rfl
          rw [hpaths, List.map_id]
          exact nodup_newNeighbours next visited frontier
        · rintro p hp _ hp' rfl
          obtain ⟨q, hq, rfl⟩ := List.mem_map.mp hp
          obtain ⟨r, hr, hpath⟩ := List.mem_map.mp hp'
          obtain ⟨hlow, -, hdistance⟩ := (hlater r).mp hr
          rw [hpath] at hdistance
          have := hdistance.unique ((h.mem_newNeighbours hnext).mp hq)
          omega
      · refine List.pairwise_append.mpr ⟨?_, hsorted, ?_⟩
        · exact List.pairwise_map.mpr (List.pairwise_of_forall fun _ _ => le_rfl)
        · intro x hx y hy
          obtain ⟨q, -, rfl⟩ := List.mem_map.mp hx
          exact ((hlater y).mp hy).1.le

end Level

/-! ## Queries -/

theorem Direction.ofName?_name (direction : Direction) :
    ofName? direction.name = some direction := by
  cases direction <;> decide

namespace ImportGraph

/-- Whether an edge leads from `x` to `y` in one of the two directions. -/
def Leads (g : ImportGraph) : Direction → Text → Text → Prop
  | .dependencies, x, y => g.Imports x y
  | .dependents, x, y => g.Imports y x

theorem mem_neighbours_after (edits : List ImportEdit) (direction : Direction) (x y : Text) :
    y ∈ (after edits).neighbours direction x ↔ (after edits).Leads direction x y := by
  cases direction with
  | dependencies => exact Iff.rfl
  | dependents =>
      have h := represents_after edits
      show y ∈ (after edits).dependents x ↔ x ∈ (after edits).dependencies y
      rw [mem_dependents, h.importing, h.mem_dependencies_iff]

/-- All that a query of a given depth meets, nearest first. -/
def found (g : ImportGraph) (direction : Direction) (target : Text) (depth : Nat) : List Reached :=
  walkLevels (g.neighbours direction) depth 1 [target] [target]

theorem mem_found_after (edits : List ImportEdit) (direction : Direction) (target : Text)
    (depth : Nat) (r : Reached) : r ∈ (after edits).found direction target depth ↔
      1 ≤ r.depth ∧ r.depth ≤ depth ∧
        Distance ((after edits).Leads direction) target r.path r.depth := by
  have h := (atLevel_start _ target).mem_walkLevels (mem_neighbours_after edits direction) depth r
  rwa [Nat.zero_add, Nat.zero_add] at h

theorem sorted_found_after (edits : List ImportEdit) (direction : Direction) (target : Text)
    (depth : Nat) : (((after edits).found direction target depth).map Reached.path).Nodup ∧
      ((after edits).found direction target depth).Pairwise (fun x y => x.depth ≤ y.depth) :=
  (atLevel_start _ target).sorted_walkLevels (mem_neighbours_after edits direction) depth

/-- The answer to a query is cut from what it meets. -/
theorem query_eq (g : ImportGraph) (direction : Direction) (target : Text)
    (depth maxResults : Int) :
    let met := g.found direction target (if depth ≤ 0 then 1 else min depth.toNat 10)
    let most := if maxResults ≤ 0 then 100 else maxResults.toNat
    g.query false ⟨direction.name, target, depth, maxResults⟩
      = .ok
        { operation := direction.name
          target := target
          results := met.take most
          totalFound := met.length
          totalReturned := min most met.length
          truncated := decide (most < met.length) } := by
  intro met most
  have hcut : (met.take most).length < met.length ↔ most < met.length := by
    rw [List.length_take]
    omega
  rw [← List.length_take, ← decide_eq_decide.mpr hcut]
  simp only [query, Direction.ofName?_name]
  rfl

/-- A query that is not cut off finds the path `q` at depth `k`. -/
def Finds (g : ImportGraph) (direction : Direction) (p : Text) (depth : Int) (q : Text) (k : Nat) :
    Prop :=
  ∃ maxResults answer, g.query false ⟨direction.name, p, depth, maxResults⟩ = .ok answer ∧
    answer.truncated = false ∧ ⟨q, k⟩ ∈ answer.results

theorem finds_iff {g : ImportGraph} {direction : Direction} {p q : Text} {depth : Int} {k : Nat} :
    g.Finds direction p depth q k
      ↔ ⟨q, k⟩ ∈ g.found direction p (if depth ≤ 0 then 1 else min depth.toNat 10) := by
  set met := g.found direction p (if depth ≤ 0 then 1 else min depth.toNat 10) with hmet
  constructor
  · rintro ⟨maxResults, answer, hanswer, -, hmem⟩
    rw [query_eq] at hanswer
    cases hanswer
    exact List.mem_of_mem_take hmem
  · intro hmem
    -- a query for as many results as there are is not cut off
    have hpos : 0 < met.length := List.length_pos_of_mem hmem
    have hmost : (if (met.length : Int) ≤ 0 then 100 else (met.length : Int).toNat)
        = met.length := by
      rw [if_neg (by omega), Int.toNat_natCast]
    refine ⟨met.length, _, query_eq g direction p depth met.length, ?_, ?_⟩
    · rw [hmost, ← hmet]
      exact decide_eq_false (Nat.lt_irrefl _)
    · rw [hmost, ← hmet, List.take_length]
      exact hmem

/-- **Queries report shortest distances**, whatever changes led to the graph. What a query meets
are exactly the paths other than its target whose distance from the target, along the imports or
against them, is positive and at most the depth of the query; each is met once, with its distance,
and nearer ones come first. The answer tells how many there are, gives as many of them as it is
asked for from the front, and says whether it was cut off. The two directions are dual: a query that
is not cut off finds `q` at depth `k` among the dependencies of `p` just when it finds `p` at depth
`k` among the dependents of `q`. -/
theorem query_distances (edits : List ImportEdit) (target : Text) (depth : Int) :
    (∀ direction : Direction, ∃ met : List Reached,
      (∀ r, r ∈ met ↔ r.path ≠ target ∧ 1 ≤ r.depth ∧
        r.depth ≤ (if depth ≤ 0 then 1 else min depth.toNat 10) ∧
          Distance ((after edits).Leads direction) target r.path r.depth) ∧
      (met.map Reached.path).Nodup ∧ met.Pairwise (fun x y => x.depth ≤ y.depth) ∧
      ∀ maxResults : Int,
        let most := if maxResults ≤ 0 then 100 else maxResults.toNat
        (after edits).query false ⟨direction.name, target, depth, maxResults⟩
          = .ok
            { operation := direction.name
              target := target
              results := met.take most
              totalFound := met.length
              totalReturned := min most met.length
              truncated := decide (most < met.length) }) ∧
      ∀ q k, (after edits).Finds .dependencies target depth q k
        ↔ (after edits).Finds .dependents q depth target k := by
  refine ⟨?_, ?_⟩
  · intro direction
    obtain ⟨hnodup, hsorted⟩ := sorted_found_after edits direction target
      (if depth ≤ 0 then 1 else min depth.toNat 10)
    refine ⟨_, ?_, hnodup, hsorted, query_eq _ direction target depth⟩
    intro r
    rw [mem_found_after]
    refine ⟨?_, And.right⟩
    rintro ⟨hpos, hdepth, hdistance⟩
    refine ⟨?_, hpos, hdepth, hdistance⟩
    intro heq
    have := hdistance.unique (distance_zero_iff.mpr heq)
    omega
  · intro q k
    rw [finds_iff, finds_iff, mem_found_after, mem_found_after]
    exact and_congr_right fun _ => and_congr_right fun _ => distance_reverse_iff.symm

end ImportGraph

end StyleIndex
