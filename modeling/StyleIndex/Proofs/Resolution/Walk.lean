import Mathlib.Tactic
import StyleIndex.Visible

set_option autoImplicit false

/-! # The walk over imports visits what is reachable, nearest first

The walk of `Visible.lean` is compared with the import relation it explores. An import *leads
to* the stored record of its first candidate in the store (`Store.LeadsTo`); a document
`Imports` every record that one of its followable imports leads to; and `ImportChain n d` says
that `n` imports in a row take us from the start to `d` without coming back to the path of the
start.

`visits_reachable_shortest` says that the walk visits exactly the ends of import chains, each
once, and that the depth of a visit is the length of a shortest chain. The invariant of the walk
(`WalkInvariant`) speaks of the visited documents and the queue together; one step of the walk
takes the first document from the queue and follows its imports one by one
(`walkInvariant_expand`).
-/

namespace StyleIndex

/-! ## The import relation -/

namespace Store

/-- The record an import target leads to: that of its first candidate in the store. -/
def LeadsTo (s : Store) (target : Text) (d : Document) : Prop :=
  ∃ before c after, importCandidates target = before ++ c :: after ∧
    (∀ b ∈ before, s.get? b = none) ∧ s.get? c = some d

/-- `d` has a followable import that leads to `e`. -/
def Imports (s : Store) (d e : Document) : Prop :=
  ∃ i ∈ d.imports, i.followable = true ∧ s.LeadsTo i.filepath e

/-- A chain of `n` imports leads from `start` to a document. The path of the start is never
entered again, whatever record the store holds for it. -/
inductive ImportChain (s : Store) (start : Document) : Nat → Document → Prop
  | start : ImportChain s start 0 start
  | follow {n : Nat} {d e : Document} : ImportChain s start n d → s.Imports d e →
      s.key e.path ≠ s.key start.path → ImportChain s start (n + 1) e

/-- A record that is found at all is found under its own path. -/
theorem get?_path {s : Store} {p : Text} {d : Document} (h : s.get? p = some d) :
    s.key d.path = s.key p ∧ s.get? d.path = some d := by
  have hk : s.key d.path = s.key p := s.keyed (s.key p) d h
  refine ⟨hk, ?_⟩
  show s.atKey? (s.key d.path) = some d
  rw [hk]
  exact h

theorem LeadsTo.stored {s : Store} {target : Text} {d : Document} (h : s.LeadsTo target d) :
    s.get? d.path = some d := by
  obtain ⟨before, c, after, -, -, hc⟩ := h
  exact (get?_path hc).2

theorem Imports.stored {s : Store} {d e : Document} (h : s.Imports d e) :
    s.get? e.path = some e := by
  obtain ⟨i, -, -, hi⟩ := h
  exact hi.stored

/-- The lookup of an import finds the record the target leads to, with the key of its path. -/
theorem lookupImport?_eq_some_iff {s : Store} {target k : Text} {d : Document} :
    s.lookupImport? target = some (k, d) ↔ s.LeadsTo target d ∧ k = s.key d.path := by
  rw [lookupImport?, List.findSome?_eq_some_iff]
  constructor
  · rintro ⟨before, c, after, hsplit, hc, hbefore⟩
    obtain ⟨e, he, heq⟩ := Option.map_eq_some_iff.mp hc
    obtain ⟨rfl, rfl⟩ := Prod.mk.inj heq
    refine ⟨⟨before, c, after, hsplit, ?_, he⟩, (get?_path he).1.symm⟩
    intro b hb
    exact Option.map_eq_none_iff.mp (hbefore b hb)
  · rintro ⟨⟨before, c, after, hsplit, hbefore, hc⟩, rfl⟩
    refine ⟨before, c, after, hsplit, ?_, ?_⟩
    · rw [hc, (get?_path hc).1]
      rfl
    · intro b hb
      rw [hbefore b hb]
      rfl

/-- A chain ends at the start or at a stored record with another path. -/
theorem ImportChain.start_or_stored {s : Store} {start d : Document} {n : Nat}
    (h : s.ImportChain start n d) :
    (n = 0 ∧ d = start) ∨
      (0 < n ∧ s.get? d.path = some d ∧ s.key d.path ≠ s.key start.path) := by
  cases h with
  | start => exact Or.inl ⟨rfl, rfl⟩
  | follow _ himp hne => exact Or.inr ⟨Nat.succ_pos _, himp.stored, hne⟩

/-- Two ends of chains with one path are the same document. -/
theorem ImportChain.eq_of_key_eq {s : Store} {start d e : Document} {m n : Nat}
    (hd : s.ImportChain start m d) (he : s.ImportChain start n e)
    (hkey : s.key d.path = s.key e.path) : d = e := by
  rcases hd.start_or_stored with ⟨-, rfl⟩ | ⟨-, hd', hdne⟩
  · rcases he.start_or_stored with ⟨-, rfl⟩ | ⟨-, -, hene⟩
    · rfl
    · exact absurd hkey.symm hene
  · rcases he.start_or_stored with ⟨-, rfl⟩ | ⟨-, he', -⟩
    · exact absurd hkey hdne
    · have : s.get? d.path = some e := by
        show s.atKey? (s.key d.path) = some e
        rw [hkey]
        exact he'
      rw [hd'] at this
      exact Option.some.inj this

end Store

/-! ## The invariant of the walk

`Explored s start vs seen` describes the documents `vs` met so far, visited or queued, in the
order in which they were met. It holds between any two imports that are followed;
`WalkInvariant` holds between any two documents that are visited. -/

/-- The key of a visited document. -/
def Store.visitKey (s : Store) (v : Visit) : Text := s.key v.document.path

/-- The documents met so far: each at the end of a chain as long as its depth, each key once,
in order of depth. -/
structure Explored (s : Store) (start : Document) (vs : List Visit) (seen : List Text) :
    Prop where
  chain : ∀ v ∈ vs, s.ImportChain start v.depth v.document
  seen_iff : ∀ k, k ∈ seen ↔ k ∈ vs.map s.visitKey
  start_seen : s.key start.path ∈ seen
  nodup : (vs.map s.visitKey).Nodup
  sorted : vs.Pairwise (fun a b => a.depth ≤ b.depth)

/-- Every import of `v` has been met, at most one step deeper than `v`. -/
def Settled (s : Store) (vs : List Visit) (v : Visit) : Prop :=
  ∀ e, s.Imports v.document e → ∃ w ∈ vs, s.visitKey w = s.key e.path ∧ w.depth ≤ v.depth + 1

/-- The invariant of the walk after the documents `visited`. -/
structure WalkInvariant (s : Store) (start : Document) (visited : List Visit) (f : Frontier) :
    Prop where
  explored : Explored s start (visited ++ f.queue) f.seen
  near : ∀ v queue, f.queue = v :: queue → ∀ w ∈ queue, w.depth ≤ v.depth + 1
  settled : ∀ v ∈ visited, Settled s (visited ++ f.queue) v

theorem Settled.mono {s : Store} {vs ws : List Visit} {v : Visit} (h : Settled s vs v)
    (hsub : vs ⊆ ws) : Settled s ws v := by
  intro e he
  obtain ⟨w, hw, hkey, hdepth⟩ := h e he
  exact ⟨w, hsub hw, hkey, hdepth⟩

namespace Frontier

/-- What following one import does: nothing if the import leads nowhere new, and else the new
document is queued. -/
theorem follow_cases (s : Store) (depth : Nat) (f : Frontier) (i : Import) :
    (follow s depth f i = f ∧
        ∀ e, i.followable = true → s.LeadsTo i.filepath e → s.key e.path ∈ f.seen) ∨
      ∃ e, i.followable = true ∧ s.LeadsTo i.filepath e ∧ s.key e.path ∉ f.seen ∧
        follow s depth f i = ⟨s.key e.path :: f.seen, f.queue ++ [⟨e, depth⟩]⟩ := by
  unfold follow
  by_cases hfol : i.followable = true
  · rw [if_pos hfol]
    cases hl : s.lookupImport? i.filepath with
    | none =>
        refine Or.inl ⟨rfl, ?_⟩
        intro e _ he
        have := Store.lookupImport?_eq_some_iff.mpr ⟨he, rfl⟩
        rw [hl] at this
        cases this
    | some kd =>
        obtain ⟨k, d⟩ := kd
        obtain ⟨hd, rfl⟩ := Store.lookupImport?_eq_some_iff.mp hl
        by_cases hseen : s.key d.path ∈ f.seen
        · refine Or.inl ⟨by simp [hseen], ?_⟩
          intro e _ he
          have := Store.lookupImport?_eq_some_iff.mpr ⟨he, rfl⟩
          rw [hl] at this
          obtain ⟨-, rfl⟩ := Prod.mk.inj (Option.some.inj this)
          exact hseen
        · exact Or.inr ⟨d, hfol, hd, hseen, by simp [hseen]⟩
  · rw [if_neg hfol]
    exact Or.inl ⟨rfl, fun e he _ => absurd he hfol⟩

/-- Following an import never takes a document out of the queue. -/
theorem queue_subset_follow (s : Store) (depth : Nat) (f : Frontier) (i : Import) :
    f.queue ⊆ (follow s depth f i).queue := by
  rcases follow_cases s depth f i with ⟨heq, -⟩ | ⟨e, -, -, -, heq⟩
  · rw [heq]
    exact fun _ h => h
  · rw [heq]
    exact List.subset_append_left _ _

end Frontier

/-- Following an import of a visited document keeps what is known of the documents met. -/
theorem Explored.follow {s : Store} {start : Document} {visited : List Visit} {f : Frontier}
    {v : Visit} {i : Import} (h : Explored s start (visited ++ f.queue) f.seen)
    (hv : v ∈ visited) (hi : i ∈ v.document.imports)
    (hbound : ∀ w ∈ visited ++ f.queue, w.depth ≤ v.depth + 1) :
    Explored s start (visited ++ (f.follow s (v.depth + 1) i).queue)
        (f.follow s (v.depth + 1) i).seen ∧
      ∀ w ∈ visited ++ (f.follow s (v.depth + 1) i).queue, w.depth ≤ v.depth + 1 := by
  rcases Frontier.follow_cases s (v.depth + 1) f i with ⟨heq, -⟩ | ⟨e, hfol, hlead, hnew, heq⟩
  · rw [heq]
    exact ⟨h, hbound⟩
  · rw [heq]
    simp only [← List.append_assoc]
    have hvchain : s.ImportChain start v.depth v.document :=
      h.chain v (List.mem_append_left _ hv)
    have hne : s.key e.path ≠ s.key start.path := by
      intro hk
      exact hnew (hk ▸ h.start_seen)
    refine ⟨⟨?_, ?_, ?_, ?_, ?_⟩, ?_⟩
    · -- the new document is one import further than `v`
      intro w hw
      rcases List.mem_append.mp hw with hw | hw
      · exact h.chain w hw
      · rw [List.mem_singleton.mp hw]
        exact hvchain.follow ⟨i, hi, hfol, hlead⟩ hne
    · intro k
      rw [List.map_append, List.mem_append, ← h.seen_iff k, List.mem_cons, or_comm,
        List.map_singleton, List.mem_singleton]
      rfl
    · exact List.mem_cons_of_mem _ h.start_seen
    · -- its key was not among the keys seen
      rw [List.map_append, List.nodup_append]
      refine ⟨h.nodup, List.nodup_singleton _, ?_⟩
      rintro a ha b hb rfl
      rw [List.mem_map] at hb
      obtain ⟨w, hw, rfl⟩ := hb
      rw [List.mem_singleton.mp hw] at ha
      exact hnew ((h.seen_iff _).mpr ha)
    · -- nothing met before is deeper
      rw [List.pairwise_append]
      refine ⟨h.sorted, List.pairwise_singleton _ _, ?_⟩
      intro a ha b hb
      rw [List.mem_singleton.mp hb]
      exact hbound a ha
    · intro w hw
      rcases List.mem_append.mp hw with hw | hw
      · exact hbound w hw
      · rw [List.mem_singleton.mp hw]

/-- After an import has been followed, the document it leads to has been met. -/
theorem Explored.met_of_follow {s : Store} {start : Document} {visited : List Visit}
    {f : Frontier} {i : Import} {e : Document}
    (h : Explored s start (visited ++ f.queue) f.seen) (depth : Nat)
    (hfol : i.followable = true) (hlead : s.LeadsTo i.filepath e) :
    ∃ w ∈ visited ++ (f.follow s depth i).queue, s.visitKey w = s.key e.path := by
  rcases Frontier.follow_cases s depth f i with ⟨heq, hseen⟩ | ⟨e', _, hlead', _, heq⟩
  · rw [heq]
    exact List.mem_map.mp ((h.seen_iff _).mp (hseen e hfol hlead))
  · rw [heq]
    have he : e' = e := by
      have h1 := Store.lookupImport?_eq_some_iff.mpr ⟨hlead, rfl⟩
      rw [Store.lookupImport?_eq_some_iff.mpr ⟨hlead', rfl⟩] at h1
      exact (Prod.mk.inj (Option.some.inj h1)).2
    subst he
    exact ⟨⟨e', depth⟩, by simp, rfl⟩

/-! ## One document -/

/-- Following imports one after the other meets everything they lead to. -/
theorem Explored.followAll {s : Store} {start : Document} {visited : List Visit} {v : Visit}
    (hv : v ∈ visited) (is : List Import) (hsub : is ⊆ v.document.imports) :
    ∀ f : Frontier, Explored s start (visited ++ f.queue) f.seen →
      (∀ w ∈ visited ++ f.queue, w.depth ≤ v.depth + 1) →
      let f' := is.foldl (Frontier.follow s (v.depth + 1)) f
      Explored s start (visited ++ f'.queue) f'.seen ∧
        (∀ w ∈ visited ++ f'.queue, w.depth ≤ v.depth + 1) ∧
        f.queue ⊆ f'.queue ∧
        ∀ i ∈ is, ∀ e, i.followable = true → s.LeadsTo i.filepath e →
          ∃ w ∈ visited ++ f'.queue, s.visitKey w = s.key e.path := by
  induction is with
  | nil =>
      intro f h hbound
      exact ⟨h, hbound, fun _ hw => hw, by simp⟩
  | cons i is ih =>
      intro f h hbound
      have hi : i ∈ v.document.imports := hsub (by simp)
      obtain ⟨h1, hbound1⟩ := h.follow hv hi hbound
      obtain ⟨h2, hbound2, hqueue, hmet⟩ :=
        ih (fun j hj => hsub (List.mem_cons_of_mem _ hj)) _ h1 hbound1
      refine ⟨h2, hbound2, fun w hw => hqueue (Frontier.queue_subset_follow s _ f i hw), ?_⟩
      intro j hj e hfol hlead
      rcases List.mem_cons.mp hj with rfl | hj
      · -- met by the first import, and still there after the others
        obtain ⟨w, hw, hkey⟩ := h.met_of_follow (v.depth + 1) hfol hlead
        refine ⟨w, ?_, hkey⟩
        rcases List.mem_append.mp hw with hw | hw
        · exact List.mem_append_left _ hw
        · exact List.mem_append_right _ (hqueue hw)
      · exact hmet j hj e hfol hlead

/-- **One step of the walk.** Visiting the first document of the queue and following its
imports keeps the invariant. -/
theorem WalkInvariant.expand {s : Store} {start : Document} {visited : List Visit}
    {f : Frontier} {v : Visit} {queue : List Visit} (h : WalkInvariant s start visited f)
    (hq : f.queue = v :: queue) :
    WalkInvariant s start (visited ++ [v]) (Frontier.expand s { f with queue := queue } v) := by
  have hexp : Explored s start ((visited ++ [v]) ++ queue) f.seen := by
    have := h.explored
    rw [hq] at this
    simpa using this
  have hv : v ∈ visited ++ [v] := by simp
  -- everything met so far is at most one step deeper than the document being visited
  have hbound : ∀ w ∈ (visited ++ [v]) ++ queue, w.depth ≤ v.depth + 1 := by
    intro w hw
    rcases List.mem_append.mp hw with hw | hw
    · rcases List.mem_append.mp hw with hw | hw
      · have hsorted := h.explored.sorted
        rw [hq, List.pairwise_append] at hsorted
        have := hsorted.2.2 w hw v (by simp)
        omega
      · rw [List.mem_singleton.mp hw]
        omega
    · exact h.near v queue hq w hw
  obtain ⟨hexp', hbound', hqueue, hmet⟩ :=
    Explored.followAll hv v.document.imports (fun _ hi => hi) { f with queue := queue } hexp hbound
  refine ⟨hexp', ?_, ?_⟩
  · -- the next document in the queue is no nearer than `v`, and the others are near to `v`
    intro u rest hu w hw
    have huv : v.depth ≤ u.depth := by
      have hsorted := hexp'.sorted
      rw [List.pairwise_append] at hsorted
      exact hsorted.2.2 v hv u (by rw [Frontier.expand] at hu; rw [hu]; simp)
    have hwv : w.depth ≤ v.depth + 1 := by
      refine hbound' w (List.mem_append_right _ ?_)
      rw [Frontier.expand] at hu
      rw [hu]
      exact List.mem_cons_of_mem _ hw
    omega
  · intro u hu
    rcases List.mem_append.mp hu with hu' | hu'
    · refine (h.settled u hu').mono ?_
      rw [hq]
      intro w hw
      rcases List.mem_append.mp hw with hw | hw
      · exact List.mem_append_left _ (List.mem_append_left _ hw)
      · rcases List.mem_cons.mp hw with rfl | hw
        · exact List.mem_append_left _ hv
        · exact List.mem_append_right _ (hqueue hw)
    · -- `v` is settled now: all its imports have been followed
      rw [List.mem_singleton.mp hu']
      rintro e ⟨i, hi, hfol, hlead⟩
      obtain ⟨w, hw, hkey⟩ := hmet i hi e hfol hlead
      exact ⟨w, hw, hkey, hbound' w hw⟩

/-! ## The whole walk -/

/-- The invariant at the end of the walk, when the queue is empty. -/
theorem WalkInvariant.walk {s : Store} {start : Document} (f : Frontier) :
    ∀ visited : List Visit, WalkInvariant s start visited f →
      ∃ seen, WalkInvariant s start (visited ++ Frontier.walk s f) ⟨seen, []⟩ := by
  fun_induction Frontier.walk s f with
  | case1 f hq =>
      intro visited h
      refine ⟨f.seen, ?_⟩
      rw [List.append_nil]
      obtain ⟨seen, queue⟩ := f
      subst hq
      exact h
  | case2 f v queue hq ih =>
      intro visited h
      obtain ⟨seen, hend⟩ := ih (visited ++ [v]) (h.expand hq)
      refine ⟨seen, ?_⟩
      rw [List.append_assoc] at hend
      exact hend

/-- The invariant before the first document. -/
theorem walkInvariant_start (s : Store) (start : Document) :
    WalkInvariant s start [] ⟨[s.key start.path], [⟨start, 0⟩]⟩ := by
  refine ⟨⟨?_, ?_, ?_, ?_, ?_⟩, ?_, ?_⟩
  · intro v hv
    rw [List.mem_singleton.mp hv]
    exact .start
  · intro k
    rfl
  · simp
  · simp
  · simp
  · intro v queue hq w hw
    obtain ⟨-, rfl⟩ := List.cons.inj hq
    cases hw
  · intro v hv
    cases hv

/-- What is known of the documents the walk visits. -/
theorem explored_visits (s : Store) (start : Document) :
    (∃ seen, Explored s start (s.visits start) seen) ∧
      ∀ v ∈ s.visits start, Settled s (s.visits start) v := by
  obtain ⟨seen, h⟩ := WalkInvariant.walk _ [] (walkInvariant_start s start)
  have hvisits : [] ++ Frontier.walk s ⟨[s.key start.path], [⟨start, 0⟩]⟩ ++ ([] : List Visit)
      = s.visits start := by
    rw [List.nil_append, List.append_nil]
    rfl
  have hexp := h.explored
  have hset := h.settled
  rw [hvisits] at hexp hset
  exact ⟨⟨seen, hexp⟩, hset⟩

/-- The walk begins at the start. -/
theorem visits_eq_cons (s : Store) (start : Document) :
    ∃ rest, s.visits start = ⟨start, 0⟩ :: rest := by
  refine ⟨Frontier.walk s (Frontier.expand s ⟨[s.key start.path], []⟩ ⟨start, 0⟩), ?_⟩
  rw [Store.visits, Frontier.walk]

/-- Depths never decrease along the walk. -/
theorem visits_sorted (s : Store) (start : Document) :
    (s.visits start).Pairwise (fun a b => a.depth ≤ b.depth) := by
  obtain ⟨⟨_, h⟩, -⟩ := explored_visits s start
  exact h.sorted

/-- The end of every chain is visited, at most as deep as the chain is long. -/
theorem exists_visit_of_importChain {s : Store} {start d : Document} {n : Nat}
    (h : s.ImportChain start n d) :
    ∃ v ∈ s.visits start, v.document = d ∧ v.depth ≤ n := by
  obtain ⟨⟨seen, hexp⟩, hset⟩ := explored_visits s start
  induction h with
  | start =>
      obtain ⟨rest, hrest⟩ := visits_eq_cons s start
      exact ⟨⟨start, 0⟩, by rw [hrest]; simp, rfl, le_refl 0⟩
  | @follow n d e hd himp hne ih =>
      obtain ⟨v, hv, rfl, hdepth⟩ := ih
      obtain ⟨w, hw, hkey, hwdepth⟩ := hset v hv e himp
      refine ⟨w, hw, ?_, by omega⟩
      exact (hexp.chain w hw).eq_of_key_eq (hd.follow himp hne) hkey

/-- The depth of a visit is the length of a shortest chain to the document. -/
theorem isLeast_depth {s : Store} {start : Document} {v : Visit} (hv : v ∈ s.visits start) :
    IsLeast {n | s.ImportChain start n v.document} v.depth := by
  obtain ⟨⟨seen, hexp⟩, -⟩ := explored_visits s start
  refine ⟨hexp.chain v hv, ?_⟩
  intro n hn
  obtain ⟨w, hw, hdoc, hdepth⟩ := exists_visit_of_importChain hn
  have hwv : w = v := by
    refine List.inj_on_of_nodup_map hexp.nodup hw hv ?_
    rw [Store.visitKey, hdoc]
    rfl
  rw [← hwv]
  exact hdepth

/-! ## Depths of entries -/

/-- An entry stands at the path and the depth of a visited document. -/
theorem place_of_mem_visibleEntries {α : Type} {name : α → Text} {symbols : Document → List α}
    {e : Entry α} {visits : List Visit} :
    ∀ {hidden : List Text}, e ∈ visibleEntries name symbols hidden visits →
      ∃ v ∈ visits, (e.document, e.depth) = (v.document.path, v.depth) := by
  induction visits with
  | nil =>
      intro hidden he
      cases he
  | cons v rest ih =>
      intro hidden he
      rcases List.mem_append.mp he with he | he
      · obtain ⟨a, -, rfl⟩ := List.mem_map.mp he
        exact ⟨v, by simp, rfl⟩
      · obtain ⟨w, hw, heq⟩ := ih he
        exact ⟨w, List.mem_cons_of_mem _ hw, heq⟩

/-- The places at which the symbols of a set stand: the paths and depths of its entries. -/
def VisibleSet.places (v : VisibleSet) : List (Text × Nat) :=
  v.vars.map (fun e => (e.document, e.depth)) ++ v.mixins.map (fun e => (e.document, e.depth)) ++
    v.functions.map (fun e => (e.document, e.depth))

/-- **The walk visits exactly the reachable documents at their shortest distance.** It begins
with the start and goes on with the ends of the import chains of positive length, no key
occurs twice, and depths never decrease. The depth of a visit, which is the depth of every
entry of the visited document, is the length of a shortest chain to it. -/
theorem visits_reachable_shortest (s : Store) (start : Document) :
    (∃ rest, s.visits start = ⟨start, 0⟩ :: rest ∧
        (s.resolve start).documents = start.path :: rest.map (·.document.path) ∧
        ∀ d, d ∈ rest.map (·.document) ↔ ∃ n, 0 < n ∧ s.ImportChain start n d) ∧
      ((s.visits start).map s.visitKey).Nodup ∧
      (s.visits start).Pairwise (fun a b => a.depth ≤ b.depth) ∧
      (∀ v ∈ s.visits start, IsLeast {n | s.ImportChain start n v.document} v.depth) ∧
      ∀ p ∈ (s.resolve start).places, ∃ v ∈ s.visits start, p = (v.document.path, v.depth) := by
  obtain ⟨⟨seen, hexp⟩, -⟩ := explored_visits s start
  obtain ⟨rest, hrest⟩ := visits_eq_cons s start
  refine ⟨⟨rest, hrest, ?_, ?_⟩, hexp.nodup, hexp.sorted, fun v hv => isLeast_depth hv, ?_⟩
  · show (s.visits start).map (·.document.path) = _
    rw [hrest]
    rfl
  · intro d
    have hnodup := hexp.nodup
    rw [hrest, List.map_cons, List.nodup_cons] at hnodup
    constructor
    · intro hd
      obtain ⟨v, hv, rfl⟩ := List.mem_map.mp hd
      have hchain := hexp.chain v (by rw [hrest]; exact List.mem_cons_of_mem _ hv)
      refine ⟨v.depth, ?_, hchain⟩
      rcases hchain.start_or_stored with ⟨-, hstart⟩ | ⟨hpos, -⟩
      · -- the start has been visited before, and no key occurs twice
        refine absurd (List.mem_map.mpr ⟨v, hv, ?_⟩) hnodup.1
        rw [Store.visitKey, hstart]
        rfl
      · exact hpos
    · rintro ⟨n, hpos, hchain⟩
      obtain ⟨v, hv, rfl, -⟩ := exists_visit_of_importChain hchain
      rw [hrest] at hv
      rcases List.mem_cons.mp hv with rfl | hv
      · rcases hchain.start_or_stored with ⟨hzero, -⟩ | ⟨-, -, hne⟩
        · omega
        · exact absurd rfl hne
      · exact List.mem_map.mpr ⟨v, hv, rfl⟩
  · intro p hp
    simp only [VisibleSet.places, List.mem_append, List.mem_map] at hp
    rcases hp with (⟨e, he, rfl⟩ | ⟨e, he, rfl⟩) | ⟨e, he, rfl⟩
    · exact place_of_mem_visibleEntries he
    · exact place_of_mem_visibleEntries he
    · exact place_of_mem_visibleEntries he

end StyleIndex
