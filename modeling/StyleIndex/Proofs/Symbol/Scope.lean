import Mathlib.Tactic
import StyleIndex.Proofs.Editor.Recovery
import StyleIndex.Proofs.Resolution.Shadowing
import StyleIndex.Proofs.Symbol.Layout

set_option autoImplicit false

/-! # Scoped extraction

The record for a cursor is that of the file with some symbols in front. `extract_scoped` says which
ones: the parameters of the blocks around the cursor, and what the statements directly in these
blocks declare before it. They come by decreasing offset, so that a lookup finds the last
declaration of its name in the text.

`Declarations.inScope` states what belongs in front without the descent that collects it, as a
selection from all statements of the tree.
-/

namespace StyleIndex

/-! ## What is in scope -/

/-- What the blocks around an offset declare before it. Of all statements in the tree that hold the
offset it takes the parameters, and the statements directly in them that start before it. -/
def Declarations.inScope (o : Int) (nodes : List Node) : Declarations :=
  let blocks := (allStatements nodes).filter (·.contains o)
  let earlier := blocks.flatMap fun b => b.children.filter (Node.startsBefore o)
  { vars := blocks.flatMap Node.parameterVariables ++ earlier.filterMap Node.binding?
    mixins := earlier.filterMap (Node.callable? .mixin)
    functions := earlier.filterMap (Node.callable? .function) }

namespace LaidOut

open Declarations

variable {lo hi : Nat} {ns : List Node}

/-- What the search collects from the blocks around an offset, block by block. -/
theorem enclosed_eq_flatMap (h : LaidOut lo ns hi) (o : Int) {α : Type}
    (f : Declarations → List α) :
    ((enclosingBlocks o ns).flatMap fun b => f (ofBlock o b))
      = ((allStatements ns).filter (·.contains o)).flatMap fun b =>
          f ((ofParameters b).append (ofLevel (b.children.filter (Node.startsBefore o)))) := by
  rw [h.filter_allStatements]
  refine List.flatMap_congr fun b hb => ?_
  rw [← h.filter_allStatements] at hb
  obtain ⟨lo', hi', hchildren⟩ := h.exists_children (List.mem_filter.mp hb).1
  rw [ofBlock_eq_append hchildren]

/-- **The descent collects what is in scope**, each declaration once. -/
theorem perm_inScope (h : LaidOut lo ns hi) (o : Int) :
    (enclosed o ns).vars.Perm (inScope o ns).vars ∧
      (enclosed o ns).mixins = (inScope o ns).mixins ∧
      (enclosed o ns).functions = (inScope o ns).functions := by
  rw [enclosed_eq]
  refine ⟨?_, ?_, ?_⟩
  · rw [h.enclosed_eq_flatMap o vars]
    simp only [inScope, List.filterMap_flatMap]
    exact (List.flatMap_append_perm _ _ _).symm
  · rw [h.enclosed_eq_flatMap o mixins]
    simp only [inScope, List.filterMap_flatMap]
    rfl
  · rw [h.enclosed_eq_flatMap o functions]
    simp only [inScope, List.filterMap_flatMap]
    rfl

end LaidOut

/-! ## Symbols by decreasing offset -/

namespace SymbolTable

/-- The two tables hold the same symbols, each as often. -/
structure Perm (a b : SymbolTable) : Prop where
  vars : a.vars.Perm b.vars
  mixins : a.mixins.Perm b.mixins
  functions : a.functions.Perm b.functions

/-- The symbols of each kind come by strictly decreasing offset. -/
structure LatestFirst (s : SymbolTable) : Prop where
  vars : s.vars.Pairwise fun a b => b.offset < a.offset
  mixins : s.mixins.Pairwise fun a b => b.offset < a.offset
  functions : s.functions.Pairwise fun a b => b.offset < a.offset

/-- The symbols of one kind as a lookup shows them, where they are declared in the file itself. -/
def found (path : Text) (s : SymbolTable) (kind : SymbolKind) : List FoundSymbol :=
  Visit.declared kind ⟨⟨path, s.vars, s.mixins, s.functions, []⟩, 0⟩

theorem found_append (path : Text) (a b : SymbolTable) (kind : SymbolKind) :
    (a.append b).found path kind = a.found path kind ++ b.found path kind := by
  cases kind with
  | variableSymbol => exact List.map_append
  | mixin => exact List.map_append
  | function => exact List.map_append

theorem LatestFirst.found {s : SymbolTable} (h : s.LatestFirst) (path : Text) (kind : SymbolKind) :
    (s.found path kind).Pairwise fun f g => g.offset < f.offset := by
  cases kind with
  | variableSymbol => exact List.pairwise_map.mpr h.vars
  | mixin => exact List.pairwise_map.mpr h.mixins
  | function => exact List.pairwise_map.mpr h.functions

end SymbolTable

/-- A file's own symbols are the first that a lookup sees. -/
theorem declared_start (d : Document) (kind : SymbolKind) :
    Visit.declared kind ⟨d, 0⟩ = d.symbolTable.found d.path kind := by
  cases kind with
  | variableSymbol => rfl
  | mixin => rfl
  | function => rfl

/-- Declarations in the order of the text, reversed, come latest first. -/
theorem Declarations.Ascend.latestFirst {lo hi : Nat} {d : Declarations} (h : d.Ascend lo hi)
    (t : Text) : (d.reverse.tableIn t).LatestFirst where
  vars := List.pairwise_map.mpr (List.pairwise_reverse.mpr h.vars.increasing)
  mixins := List.pairwise_map.mpr (List.pairwise_reverse.mpr h.mixins.increasing)
  functions := List.pairwise_map.mpr (List.pairwise_reverse.mpr h.functions.increasing)

namespace LaidOut

variable {lo hi : Nat} {ns : List Node}

/-- The symbols from the blocks around an offset come latest first. -/
theorem latestFirst_around (h : LaidOut lo ns hi) (o : Int) (t : Text) :
    ((Declarations.around o ns).tableIn t).LatestFirst := by
  rw [Declarations.around_eq_reverse]
  exact (h.ascend_enclosed o).latestFirst t

/-- The symbols from the blocks around an offset are those in scope there. -/
theorem perm_around (h : LaidOut lo ns hi) (o : Int) (t : Text) :
    ((Declarations.around o ns).tableIn t).Perm ((Declarations.inScope o ns).tableIn t) := by
  obtain ⟨hvars, hmixins, hfunctions⟩ := h.perm_inScope o
  rw [Declarations.around_eq_reverse]
  refine ⟨((List.reverse_perm _).trans hvars).map _, ?_, ?_⟩
  · exact ((List.reverse_perm _).trans (.of_eq hmixins)).map _
  · exact ((List.reverse_perm _).trans (.of_eq hfunctions)).map _

end LaidOut

/-! ## Lookup -/

/-- `f` is the one of the symbols with the given name that comes last in the text. -/
structure IsLatest (fs : List FoundSymbol) (name : Text) (f : FoundSymbol) : Prop where
  mem : f ∈ fs
  named : f.name = name
  latest : ∀ g ∈ fs, g.name = name → g.offset ≤ f.offset

/-- Among symbols by decreasing offset the first one with a name is the latest. -/
theorem isLatest_of_find? {fs : List FoundSymbol} {name : Text} {f : FoundSymbol}
    (hsorted : fs.Pairwise fun f g => g.offset < f.offset)
    (h : fs.find? (·.name = name) = some f) : IsLatest fs name f := by
  obtain ⟨hname, before, after, rfl, hbefore⟩ := List.find?_eq_some_iff_append.mp h
  refine ⟨by simp, by simpa using hname, fun g hg hgname => ?_⟩
  rcases List.mem_append.mp hg with hg | hg
  · exact absurd hgname (by simpa using hbefore g hg)
  · rcases List.mem_cons.mp hg with rfl | hg
    · exact le_rfl
    · have hafter := (List.pairwise_cons.mp (List.pairwise_append.mp hsorted).2.1).1 g hg
      exact hafter.le

/-- What the start declares is found before all else. -/
theorem lookup?_of_find? {d : Document} {kind : SymbolKind} {name typed : Text} {f : FoundSymbol}
    (h : (d.symbolTable.found d.path kind).find? (·.name = name) = some f) (s : Store)
    (htyped : VisibleSet.soughtName kind typed = name) :
    (s.resolve d).lookup? typed kind = some f := by
  obtain ⟨rest, hrest⟩ := visits_eq_cons s d
  rw [lookup?_resolve_soughtName, htyped, hrest, List.flatMap_cons, List.find?_append,
    declared_start, h, Option.some_or]

/-! ## The record for a cursor -/

/-- **Scoped extraction is exact and innermost first.** The record of a text that parses for a
cursor at offset `o` has the imports of the record of the whole file, and its symbols behind some
others: what is in scope at `o`, each declaration once and by strictly decreasing offset. So if a
name is declared in scope, the first symbol of that name in the record is the declaration in scope
that comes last in the text, and a lookup from the record finds it, whatever is imported. -/
theorem extract_scoped {t : Text} {sheet : Stylesheet} (h : parse t = .ok sheet) (path : Text)
    (o : Int) (strict : Bool) :
    ∃ (d top : Document) (inner : SymbolTable),
      extract path t (some o) strict = .ok d ∧
      extract path t none strict = .ok top ∧
      d.imports = top.imports ∧
      d.symbolTable = inner.append top.symbolTable ∧
      inner.Perm ((Declarations.inScope o sheet.children).tableIn t) ∧
      inner.LatestFirst ∧
      ∀ (kind : SymbolKind) (name : Text), (∃ g ∈ inner.found path kind, g.name = name) →
        ∃ f, IsLatest (inner.found path kind) name f ∧
          (d.symbolTable.found path kind).find? (·.name = name) = some f ∧
          ∀ (s : Store) (typed : Text), VisibleSet.soughtName kind typed = name →
            (s.resolve d).lookup? typed kind = some f := by
  have hlaid := laidOut_of_parse h
  have htable : (Document.ofNodes path t (some o) sheet.children).symbolTable
      = ((Declarations.around o sheet.children).tableIn t).append
          (Document.ofNodes path t none sheet.children).symbolTable := by
    rw [symbolTable_ofNodes, symbolTable_ofNodes]
    exact Declarations.tableIn_append t _ _
  have hlatest := hlaid.latestFirst_around o t
  refine ⟨_, _, (Declarations.around o sheet.children).tableIn t, extract_of_parse h path _ strict,
    extract_of_parse h path _ strict, rfl, htable, hlaid.perm_around o t, hlatest, ?_⟩
  rintro kind name ⟨g, hg, hname⟩
  generalize (Declarations.around o sheet.children).tableIn t = inner at *
  have hsome : ((inner.found path kind).find? (·.name = name)).isSome = true := by
    rw [List.find?_isSome]
    exact ⟨g, hg, by simpa using hname⟩
  obtain ⟨f, hf⟩ := Option.isSome_iff_exists.mp hsome
  have hfind : ((Document.ofNodes path t (some o) sheet.children).symbolTable.found path kind).find?
      (·.name = name) = some f := by
    rw [htable, SymbolTable.found_append, List.find?_append, hf, Option.some_or]
  exact ⟨f, isLatest_of_find? (hlatest.found path kind) hf, hfind,
    fun s typed htyped => lookup?_of_find? hfind s htyped⟩

/-- A mixin with parameters, and a block in it that declares one of their names again. -/
def shadowingText : Text :=
  text "$p: 0; @mixin m($p, $q: 1) \x7b $r: 2; b \x7b $p: 3; \x7d \x7d"

def shadowingSheet : Stylesheet :=
  ⟨50, [.leaf ⟨0, .binding (text "$p") [], text "0"⟩ 6,
    .block ⟨7, .callable .mixin (text "m") 14 [⟨text "$p", [], 16⟩, ⟨text "$q", text "1", 20⟩],
        text "@mixin m($p, $q: 1)"⟩ 28
      [.leaf ⟨29, .binding (text "$r") [], text "2"⟩ 35,
        .block ⟨36, .ruleset, text "b"⟩ 39
          [.leaf ⟨40, .binding (text "$p") [], text "3"⟩ 46] 48] 50]⟩

/-- A cursor in the inner block, where two enclosing declarations have the name `$p`. -/
theorem extract_scoped_shadowingText :
    parse shadowingText = .ok shadowingSheet ∧
    ((Declarations.inScope 46 shadowingSheet.children).vars.map fun v => (v.1, v.2.2))
      = [(text "$p", 16), (text "$q", 20), (text "$r", 29), (text "$p", 40)] ∧
    ∃ (d top : Document) (inner : SymbolTable),
      extract (text "/a.scss") shadowingText (some 46) true = .ok d ∧
      extract (text "/a.scss") shadowingText none true = .ok top ∧
      d.imports = top.imports ∧
      d.symbolTable = inner.append top.symbolTable ∧
      inner.Perm ((Declarations.inScope 46 shadowingSheet.children).tableIn shadowingText) ∧
      inner.LatestFirst ∧
      ∀ (kind : SymbolKind) (name : Text),
        (∃ g ∈ inner.found (text "/a.scss") kind, g.name = name) →
        ∃ f, IsLatest (inner.found (text "/a.scss") kind) name f ∧
          (d.symbolTable.found (text "/a.scss") kind).find? (·.name = name) = some f ∧
          ∀ (s : Store) (typed : Text), VisibleSet.soughtName kind typed = name →
            (s.resolve d).lookup? typed kind = some f := by
  have hparse : parse shadowingText = .ok shadowingSheet := by cbv
  refine ⟨hparse, ?_, extract_scoped hparse (text "/a.scss") 46 true⟩
  rfl

end StyleIndex
