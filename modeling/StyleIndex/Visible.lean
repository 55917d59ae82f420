import StyleIndex.Store
import StyleIndex.Symbol.Import

set_option autoImplicit false

/-! # Visible symbols

A document sees its own symbols and those of every stylesheet it imports, directly or through
others. The imports are walked breadth first, each stored document is visited once, and a
symbol is hidden by a symbol of the same kind and name in a document visited earlier. A
document never hides its own symbols.
-/

namespace StyleIndex

/-! ## The walk -/

/-- A visited document and its distance from the start. -/
structure Visit where
  document : Document
  depth : Nat

/-- The stored record an import target refers to, with its key: that of the first candidate in
the store. -/
def Store.lookupImport? (s : Store) (target : Text) : Option (Text × Document) :=
  (importCandidates target).findSome? fun c => (s.get? c).map fun d => (s.key c, d)

/-- The state of the walk: the keys seen so far and the documents still to visit. -/
structure Frontier where
  seen : List Text
  queue : List Visit

namespace Frontier

/-- The keys of the store that have not been seen. -/
def unseen (s : Store) (f : Frontier) : List Text := s.keys.filter fun k => !f.seen.contains k

/-- Puts the document an import refers to at the end of the queue, unless it has been seen. -/
def follow (s : Store) (depth : Nat) (f : Frontier) (i : Import) : Frontier :=
  if i.followable then
    match s.lookupImport? i.filepath with
    | none => f
    | some (key, d) =>
      if f.seen.contains key then f else ⟨key :: f.seen, f.queue ++ [⟨d, depth⟩]⟩
  else f

/-- An upper bound on the number of visits to come. -/
def weight (s : Store) (f : Frontier) : Nat := (f.unseen s).length + f.queue.length

end Frontier

/-- A key under which an import was found is a key of the store. -/
theorem Store.lookupImport?_mem_keys {s : Store} {target k : Text} {d : Document}
    (h : s.lookupImport? target = some (k, d)) : k ∈ s.keys := by
  obtain ⟨c, -, hc⟩ := List.exists_of_findSome?_eq_some h
  obtain ⟨e, he, heq⟩ := Option.map_eq_some_iff.1 hc
  cases heq
  have : s.key c ∈ s.records := by
    rw [Std.ExtTreeMap.mem_iff_isSome_getElem?]
    have he' : s.records[s.key c]? = some d := he
    simp [he']
  simpa [Store.keys] using this

namespace Frontier

/-- Seeing a new key of the store leaves fewer unseen. -/
theorem length_unseen_lt {s : Store} {seen : List Text} (q q' : List Visit) {k : Text}
    (hk : k ∈ s.keys) (hs : seen.contains k = false) :
    (unseen s ⟨k :: seen, q⟩).length < (unseen s ⟨seen, q'⟩).length := by
  have h : unseen s ⟨k :: seen, q⟩ = (unseen s ⟨seen, q'⟩).filter fun y => y != k := by
    simp only [unseen, List.filter_filter]
    congr 1
    funext y
    simp only [List.contains_cons, Bool.not_or]
    rfl
  rw [h]
  refine List.length_filter_lt_length_iff_exists.mpr ⟨k, ?_, by simp⟩
  simp only [unseen, List.mem_filter]
  exact ⟨hk, by rw [hs]; rfl⟩

/-- Following an import does not raise the bound. -/
theorem weight_follow_le (s : Store) (depth : Nat) (f : Frontier) (i : Import) :
    (follow s depth f i).weight s ≤ f.weight s := by
  unfold follow
  split
  · split
    · exact Nat.le_refl _
    · next key d hl =>
      split
      · exact Nat.le_refl _
      · next hs =>
        have hlt := length_unseen_lt (f.queue ++ [⟨d, depth⟩]) f.queue
          (Store.lookupImport?_mem_keys hl) (Bool.eq_false_iff.2 hs)
        simp only [weight, List.length_append, List.length_singleton]
        have : (unseen s ⟨f.seen, f.queue⟩).length = (f.unseen s).length := rfl
        omega
  · exact Nat.le_refl _

/-- Follows the imports of a visited document in their order. -/
def expand (s : Store) (f : Frontier) (v : Visit) : Frontier :=
  v.document.imports.foldl (follow s (v.depth + 1)) f

/-- Following all imports of a document does not raise the bound. -/
theorem weight_expand_le (s : Store) (f : Frontier) (v : Visit) :
    (expand s f v).weight s ≤ f.weight s := by
  unfold expand
  generalize v.document.imports = is
  induction is generalizing f with
  | nil => exact Nat.le_refl _
  | cons i is ih => exact Nat.le_trans (ih _) (weight_follow_le s _ f i)

/-- The visits to come, in order. -/
def walk (s : Store) (f : Frontier) : List Visit :=
  match _h : f.queue with
  | [] => []
  | v :: queue => v :: walk s (expand s { f with queue := queue } v)
termination_by f.weight s
decreasing_by
  refine Nat.lt_of_le_of_lt (weight_expand_le s _ v) ?_
  have : (unseen s ⟨f.seen, queue⟩).length = (f.unseen s).length := rfl
  simp only [weight, _h, List.length_cons]
  omega

end Frontier

/-- The documents visible from `start`, in the order in which they are visited, `start`
first. The start need not be stored. -/
def Store.visits (s : Store) (start : Document) : List Visit :=
  Frontier.walk s ⟨[s.key start.path], [⟨start, 0⟩]⟩

/-! ## Shadowing -/

/-- A visible symbol, the path of the document that declares it, and the distance of that
document. -/
structure Entry (α : Type) where
  symbol : α
  document : Text
  depth : Nat
  deriving DecidableEq

/-- The visible symbols of one kind. `hidden` holds the names declared by documents visited
before. -/
def visibleEntries {α : Type} (name : α → Text) (symbols : Document → List α)
    (hidden : List Text) : List Visit → List (Entry α)
  | [] => []
  | v :: rest =>
    let fresh := (symbols v.document).filter fun a => !hidden.contains (name a)
    fresh.map (⟨·, v.document.path, v.depth⟩) ++
      visibleEntries name symbols (fresh.map name ++ hidden) rest

/-- The symbols visible from a document and the paths of the visited documents. -/
structure VisibleSet where
  documents : List Text
  vars : List (Entry VariableSymbol)
  mixins : List (Entry CallableSymbol)
  functions : List (Entry CallableSymbol)

/-- The symbols visible from `start`. -/
def Store.resolve (s : Store) (start : Document) : VisibleSet :=
  let visits := s.visits start
  { documents := visits.map (·.document.path)
    vars := visibleEntries VariableSymbol.name Document.vars [] visits
    mixins := visibleEntries CallableSymbol.name Document.mixins [] visits
    functions := visibleEntries CallableSymbol.name Document.functions [] visits }

/-- The symbols visible from the stored record of a path. -/
def Store.visibleFrom? (s : Store) (path : Text) : Option VisibleSet :=
  (s.get? path).map s.resolve

/-! ## Lookup -/

/-- A visible symbol of any kind. The value is empty for callables, the parameters are empty
for variables. -/
structure FoundSymbol where
  name : Text
  kind : SymbolKind
  value : Text
  parameters : List Parameter
  offset : Nat
  position : Position
  document : Text
  depth : Nat
  deriving DecidableEq

namespace VisibleSet

/-- A variable found. -/
def foundVariable (e : Entry VariableSymbol) : FoundSymbol :=
  ⟨e.symbol.name, .variableSymbol, e.symbol.value, [], e.symbol.offset, e.symbol.position,
    e.document, e.depth⟩

/-- A callable found. -/
def foundCallable (kind : SymbolKind) (e : Entry CallableSymbol) : FoundSymbol :=
  ⟨e.symbol.name, kind, [], e.symbol.parameters, e.symbol.offset, e.symbol.position,
    e.document, e.depth⟩

/-- The name of a variable with its `$`, which may be left out of a lookup. -/
def variableName : Text → Text
  | [] => []
  | c :: rest => if c = Ascii.dollar then c :: rest else Ascii.dollar :: c :: rest

/-- The first visible symbol of the given name and kind. -/
def lookup? (v : VisibleSet) (name : Text) (kind : SymbolKind) : Option FoundSymbol :=
  match kind with
  | .variableSymbol =>
    (v.vars.find? (·.symbol.name = variableName name)).map foundVariable
  | .mixin => (v.mixins.find? (·.symbol.name = name)).map (foundCallable .mixin)
  | .function => (v.functions.find? (·.symbol.name = name)).map (foundCallable .function)

end VisibleSet

end StyleIndex
