import Mathlib.Tactic
import StyleIndex.Proofs.Resolution.Walk

set_option autoImplicit false

/-! # Shadowing is exact

The entries of a visible set against the documents of the walk. `unshadowed` states which
symbols are visible without a running set of hidden names: those of each visited document whose
name no earlier document declares. The walk claims the names of a document only after the whole
document, and only those that were not claimed before; `hidden` in `visibleEntries` is
nevertheless the set of all names declared earlier, and this is the invariant below.

A lookup searches the visible entries only, but finds what a search through *all* declarations
of the visited documents would find first (`find?_visibleEntries`). Since depths never decrease
along the walk, that declaration is also a nearest one.
-/

namespace StyleIndex

/-! ## Entries -/

section Kind

variable {α : Type} (name : α → Text) (symbols : Document → List α)

/-- The entry of a symbol of a visited document. -/
def Visit.entry (v : Visit) (a : α) : Entry α := ⟨a, v.document.path, v.depth⟩

/-- Whether a visited document declares a symbol of the given name. -/
def Visit.declares (v : Visit) (n : Text) : Bool := (symbols v.document).any (name · == n)

/-- The symbols of the visited documents, in visiting order and inside one document in the
order of declaration, less those whose name an earlier document declares. -/
def unshadowed (visits : List Visit) : List (Entry α) :=
  visits.zipIdx.flatMap fun (v, i) =>
    ((symbols v.document).filter fun a =>
      !(visits.take i).any (·.declares name symbols (name a))).map v.entry

variable {name symbols}

@[simp] theorem Visit.entry_symbol (v : Visit) (a : α) : (v.entry a).symbol = a := rfl

theorem visibleEntries_cons (hidden : List Text) (v : Visit) (rest : List Visit) :
    visibleEntries name symbols hidden (v :: rest)
      = ((symbols v.document).filter fun a => !hidden.contains (name a)).map v.entry
        ++ visibleEntries name symbols
            (((symbols v.document).filter fun a => !hidden.contains (name a)).map name ++ hidden)
            rest := rfl

theorem Visit.declares_eq_true {v : Visit} {n : Text} :
    v.declares name symbols n = true ↔ ∃ a ∈ symbols v.document, name a = n := by
  simp [Visit.declares]

/-- After a document the hidden names are those declared up to and including it. -/
theorem contains_hidden {earlier : List Visit} {hidden : List Text} (v : Visit)
    (h : ∀ n, hidden.contains n = earlier.any (·.declares name symbols n)) (n : Text) :
    (((symbols v.document).filter fun a => !hidden.contains (name a)).map name
        ++ hidden).contains n
      = (earlier ++ [v]).any (·.declares name symbols n) := by
  rw [List.any_append, ← h n, Bool.eq_iff_iff]
  simp only [List.contains_iff_mem, List.mem_append, List.mem_map, List.mem_filter,
    Bool.or_eq_true, List.any_cons, List.any_nil, Bool.or_false, Visit.declares_eq_true]
  constructor
  · rintro (⟨a, ⟨ha, -⟩, hn⟩ | hn)
    · exact Or.inr ⟨a, ha, hn⟩
    · exact Or.inl hn
  · rintro (hn | ⟨a, ha, rfl⟩)
    · exact Or.inr hn
    · by_cases hh : name a ∈ hidden
      · exact Or.inr hh
      · exact Or.inl ⟨a, ⟨ha, by simpa using hh⟩, rfl⟩

/-- The visible entries from any place of the walk on. -/
theorem visibleEntries_eq (rest : List Visit) :
    ∀ (earlier : List Visit) (hidden : List Text),
      (∀ n, hidden.contains n = earlier.any (·.declares name symbols n)) →
      visibleEntries name symbols hidden rest
        = (rest.zipIdx earlier.length).flatMap fun (v, i) =>
            ((symbols v.document).filter fun a =>
              !((earlier ++ rest).take i).any (·.declares name symbols (name a))).map v.entry := by
  induction rest with
  | nil =>
      intro earlier hidden _
      rfl
  | cons v rest ih =>
      intro earlier hidden h
      have htail := ih (earlier ++ [v]) _ (contains_hidden v h)
      rw [List.append_assoc, List.length_append, List.length_singleton] at htail
      rw [List.zipIdx_cons, List.flatMap_cons, visibleEntries_cons, htail]
      congr 1
      simp only [List.take_left, h]

/-- The entries of one kind are the symbols that no earlier document shadows. -/
theorem visibleEntries_nil_eq_unshadowed (visits : List Visit) :
    visibleEntries name symbols [] visits = unshadowed name symbols visits :=
  visibleEntries_eq visits [] [] (fun _ => rfl)

/-- Every symbol of the first document is visible. -/
theorem prefix_unshadowed (v : Visit) (rest : List Visit) :
    (symbols v.document).map v.entry <+: unshadowed name symbols (v :: rest) := by
  rw [unshadowed, List.zipIdx_cons, List.flatMap_cons]
  simp only [List.take_zero, List.any_nil, Bool.not_false, List.filter_true]
  exact List.prefix_append _ _

/-! ## Lookup -/

/-- A lookup among the visible entries finds what a search through all declarations finds, for
a name that nothing before the walk has hidden. -/
theorem find?_visibleEntries {n : Text} (visits : List Visit) :
    ∀ hidden : List Text, n ∉ hidden →
      (visibleEntries name symbols hidden visits).find? (name ·.symbol = n)
        = (visits.flatMap fun v => (symbols v.document).map v.entry).find?
            (name ·.symbol = n) := by
  induction visits with
  | nil =>
      intro hidden _
      rfl
  | cons v rest ih =>
      intro hidden hn
      -- the filter drops no symbol of the sought name
      have hfirst : (((symbols v.document).filter fun a => !hidden.contains (name a)).map
            v.entry).find? (name ·.symbol = n)
          = ((symbols v.document).map v.entry).find? (name ·.symbol = n) := by
        rw [List.find?_map, List.find?_map, List.find?_filter]
        congr 2
        funext a
        by_cases ha : name a = n
        · simp [ha, hn]
        · simp [ha]
      rw [visibleEntries_cons, List.flatMap_cons, List.find?_append, List.find?_append, hfirst]
      by_cases hv : v.declares name symbols n = true
      · -- the first document that declares the name decides the search
        obtain ⟨a, ha, hname⟩ := Visit.declares_eq_true.mp hv
        have hsome : (((symbols v.document).map v.entry).find? (name ·.symbol = n)).isSome := by
          rw [List.find?_isSome]
          exact ⟨v.entry a, List.mem_map_of_mem ha, by simp [hname]⟩
        obtain ⟨e, he⟩ := Option.isSome_iff_exists.mp hsome
        rw [he, Option.some_or, Option.some_or]
      · have hnone : ∀ a ∈ symbols v.document, name a ≠ n := by
          intro a ha hname
          exact hv (Visit.declares_eq_true.mpr ⟨a, ha, hname⟩)
        rw [ih]
        intro hmem
        rcases List.mem_append.mp hmem with hmem | hmem
        · obtain ⟨a, ha, hname⟩ := List.mem_map.mp hmem
          exact hnone a (List.mem_filter.mp ha).1 hname
        · exact hn hmem

variable (name symbols) in
/-- The same for entries shown in another form that keeps their names. -/
theorem map_find?_visibleEntries (found : Entry α → FoundSymbol)
    (hfound : ∀ e, (found e).name = name e.symbol) (n : Text) (visits : List Visit) :
    ((visibleEntries name symbols [] visits).find? (name ·.symbol = n)).map found
      = (visits.flatMap fun v => (symbols v.document).map fun a => found (v.entry a)).find?
          (·.name = n) := by
  have hmap : (visits.flatMap fun v => (symbols v.document).map fun a => found (v.entry a))
      = (visits.flatMap fun v => (symbols v.document).map v.entry).map found := by
    rw [List.map_flatMap]
    simp only [List.map_map, Function.comp_def]
  rw [find?_visibleEntries visits [] (List.not_mem_nil), hmap, List.find?_map]
  congr 2
  funext e
  simp only [Function.comp_apply, hfound]

end Kind

/-! ## The three kinds -/

/-- The declarations of one kind in a visited document, in their order, as a lookup shows
them. -/
def Visit.declared (kind : SymbolKind) (v : Visit) : List FoundSymbol :=
  match kind with
  | .variableSymbol => v.document.vars.map fun a => VisibleSet.foundVariable (v.entry a)
  | .mixin => v.document.mixins.map fun a => VisibleSet.foundCallable .mixin (v.entry a)
  | .function => v.document.functions.map fun a => VisibleSet.foundCallable .function (v.entry a)

/-- A declaration is shown with the path and the depth of the document it stands in. -/
theorem Visit.place_of_mem_declared {kind : SymbolKind} {v : Visit} {f : FoundSymbol}
    (h : f ∈ v.declared kind) : f.document = v.document.path ∧ f.depth = v.depth := by
  cases kind with
  | variableSymbol =>
      obtain ⟨a, -, rfl⟩ := List.mem_map.mp h
      exact ⟨rfl, rfl⟩
  | mixin =>
      obtain ⟨a, -, rfl⟩ := List.mem_map.mp h
      exact ⟨rfl, rfl⟩
  | function =>
      obtain ⟨a, -, rfl⟩ := List.mem_map.mp h
      exact ⟨rfl, rfl⟩

/-- `f` is the first declaration of `name` in the first visited document that declares it. -/
def IsFirstDeclaration (kind : SymbolKind) (name : Text) (visits : List Visit)
    (f : FoundSymbol) : Prop :=
  f.name = name ∧
    ∃ before v after, visits = before ++ v :: after ∧
      (∀ u ∈ before, ∀ g ∈ u.declared kind, g.name ≠ name) ∧
      ∃ fs gs, v.declared kind = fs ++ f :: gs ∧ ∀ g ∈ fs, g.name ≠ name

/-- The name that a lookup of one kind searches for: that of a variable may lack its `$`. -/
def VisibleSet.soughtName (kind : SymbolKind) (name : Text) : Text :=
  match kind with
  | .variableSymbol => variableName name
  | _ => name

theorem VisibleSet.soughtName_eq {kind : SymbolKind} {name : Text}
    (hname : kind = .variableSymbol → name.head? = some Ascii.dollar) :
    soughtName kind name = name := by
  cases kind with
  | variableSymbol =>
      cases name with
      | nil => rfl
      | cons c rest =>
          have hc : c = Ascii.dollar := by simpa using hname rfl
          rw [soughtName, variableName, if_pos hc]
  | mixin => rfl
  | function => rfl

/-- A lookup is a search through all declarations of the visited documents. -/
theorem lookup?_resolve_soughtName (s : Store) (start : Document) (kind : SymbolKind)
    (name : Text) :
    (s.resolve start).lookup? name kind = ((s.visits start).flatMap (Visit.declared kind)).find?
      (·.name = VisibleSet.soughtName kind name) := by
  cases kind with
  | variableSymbol =>
      exact map_find?_visibleEntries VariableSymbol.name Document.vars VisibleSet.foundVariable
        (fun _ => rfl) (VisibleSet.variableName name) (s.visits start)
  | mixin =>
      exact map_find?_visibleEntries CallableSymbol.name Document.mixins
        (VisibleSet.foundCallable .mixin) (fun _ => rfl) name (s.visits start)
  | function =>
      exact map_find?_visibleEntries CallableSymbol.name Document.functions
        (VisibleSet.foundCallable .function) (fun _ => rfl) name (s.visits start)

/-- A lookup is a search through all declarations of the visited documents, for a name that is
looked for as it stands. -/
theorem lookup?_resolve (s : Store) (start : Document) (kind : SymbolKind) (name : Text)
    (hname : kind = .variableSymbol → name.head? = some Ascii.dollar) :
    (s.resolve start).lookup? name kind
      = ((s.visits start).flatMap (Visit.declared kind)).find? (·.name = name) := by
  rw [lookup?_resolve_soughtName, VisibleSet.soughtName_eq hname]

/-- The first hit of a search through all declarations is the first declaration of its name. -/
theorem isFirstDeclaration_of_find? {kind : SymbolKind} {name : Text} {visits : List Visit}
    {f : FoundSymbol}
    (h : (visits.flatMap (Visit.declared kind)).find? (·.name = name) = some f) :
    IsFirstDeclaration kind name visits f := by
  rw [List.find?_flatMap, List.findSome?_eq_some_iff] at h
  obtain ⟨before, v, after, hsplit, hv, hbefore⟩ := h
  obtain ⟨hname, fs, gs, hfs, hnone⟩ := List.find?_eq_some_iff_append.mp hv
  refine ⟨by simpa using hname, before, v, after, hsplit, ?_, fs, gs, hfs, ?_⟩
  · intro u hu g hg
    simpa using List.find?_eq_none.mp (hbefore u hu) g hg
  · intro g hg
    simpa using hnone g hg

/-- No declaration of a name is nearer than the first one. -/
theorem IsFirstDeclaration.depth_le {kind : SymbolKind} {name : Text} {visits : List Visit}
    {f : FoundSymbol} (h : IsFirstDeclaration kind name visits f)
    (hsorted : visits.Pairwise (fun a b => a.depth ≤ b.depth)) {u : Visit} (hu : u ∈ visits)
    {g : FoundSymbol} (hg : g ∈ u.declared kind) (hname : g.name = name) :
    f.depth ≤ g.depth := by
  obtain ⟨-, before, v, after, rfl, hbefore, fs, gs, hv, -⟩ := h
  have hf : f ∈ v.declared kind := by
    rw [hv]
    simp
  rw [(Visit.place_of_mem_declared hf).2, (Visit.place_of_mem_declared hg).2]
  rcases List.mem_append.mp hu with hu | hu
  · exact absurd hname (hbefore u hu g hg)
  · rcases List.mem_cons.mp hu with rfl | hu
    · exact le_refl _
    · exact (List.pairwise_cons.mp (List.pairwise_append.mp hsorted).2.1).1 u hu

/-- **Shadowing is exact.** The entries of each kind are the symbols of the visited documents
that no earlier document shadows, so all symbols of the start are among them. A lookup succeeds
exactly for the names that some visited document declares, and returns the first declaration in
the first such document, which no other declaration of the name is nearer than. -/
theorem resolve_shadowing (s : Store) (start : Document) :
    (s.resolve start).documents = (s.visits start).map (·.document.path) ∧
      (s.resolve start).vars
        = unshadowed VariableSymbol.name Document.vars (s.visits start) ∧
      (s.resolve start).mixins
        = unshadowed CallableSymbol.name Document.mixins (s.visits start) ∧
      (s.resolve start).functions
        = unshadowed CallableSymbol.name Document.functions (s.visits start) ∧
      (start.vars.map (Visit.entry ⟨start, 0⟩) <+: (s.resolve start).vars ∧
        start.mixins.map (Visit.entry ⟨start, 0⟩) <+: (s.resolve start).mixins ∧
        start.functions.map (Visit.entry ⟨start, 0⟩) <+: (s.resolve start).functions) ∧
      ∀ (kind : SymbolKind) (name : Text),
        (kind = .variableSymbol → name.head? = some Ascii.dollar) →
        (((s.resolve start).lookup? name kind).isSome = true ↔
          ∃ v ∈ s.visits start, ∃ f ∈ v.declared kind, f.name = name) ∧
        ∀ f, (s.resolve start).lookup? name kind = some f →
          IsFirstDeclaration kind name (s.visits start) f ∧
          ∀ v ∈ s.visits start, ∀ g ∈ v.declared kind, g.name = name → f.depth ≤ g.depth := by
  obtain ⟨rest, hrest⟩ := visits_eq_cons s start
  have hvars : (s.resolve start).vars = unshadowed VariableSymbol.name Document.vars
      (s.visits start) := visibleEntries_nil_eq_unshadowed _
  have hmixins : (s.resolve start).mixins = unshadowed CallableSymbol.name Document.mixins
      (s.visits start) := visibleEntries_nil_eq_unshadowed _
  have hfunctions : (s.resolve start).functions = unshadowed CallableSymbol.name
      Document.functions (s.visits start) := visibleEntries_nil_eq_unshadowed _
  refine ⟨rfl, hvars, hmixins, hfunctions, ⟨?_, ?_, ?_⟩, ?_⟩
  · rw [hvars, hrest]
    exact prefix_unshadowed ⟨start, 0⟩ rest
  · rw [hmixins, hrest]
    exact prefix_unshadowed ⟨start, 0⟩ rest
  · rw [hfunctions, hrest]
    exact prefix_unshadowed ⟨start, 0⟩ rest
  · intro kind name hname
    rw [lookup?_resolve s start kind name hname]
    constructor
    · simp [List.find?_isSome]
    · intro f hf
      have hfirst := isFirstDeclaration_of_find? hf
      exact ⟨hfirst, fun v hv g hg hgname => hfirst.depth_le (visits_sorted s start) hv hg hgname⟩

end StyleIndex
