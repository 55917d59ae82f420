import StyleIndex.Stylesheet.Parse
import StyleIndex.Symbol.Import
import StyleIndex.Symbol.Reference

set_option autoImplicit false

/-! # Extraction

The symbol record of a text. It lists what the top level of the stylesheet declares. When a
cursor is given, what the blocks around the cursor declare before it comes in front, innermost
and latest first, so that the first entry of a name is the one in scope.

A text that does not parse yields a record without declarations in lenient mode and an error in
strict mode. Reference comments are found in either case, since they are read off the text.
-/

namespace StyleIndex

/-- A file that could not be parsed. -/
structure ParseError where
  path : Text
  error : SyntaxError
  deriving DecidableEq

/-- The wording of a parse error. -/
def ParseError.message (e : ParseError) : Text :=
  text "parse " ++ e.path ++ text ": " ++ e.error.message

/-- Names declared by statements, each with its offset. -/
structure Declarations where
  vars : List (Text × Text × Nat)
  mixins : List (Text × List Parameter × Nat)
  functions : List (Text × List Parameter × Nat)

namespace Node

/-- The variable that a statement declares: its name, value and offset. -/
def binding? (n : Node) : Option (Text × Text × Nat) :=
  match n.form with
  | .binding name _ => some (name, n.head.value, n.start)
  | _ => none

/-- The named mixin or function that a statement declares: its name, parameters and offset. -/
def callable? (kind : CallableKind) (n : Node) : Option (Text × List Parameter × Nat) :=
  match n.form with
  | .callable k name nameStart params =>
    if k = kind ∧ name ≠ [] then some (name, params.map fun p => ⟨p.name, p.default⟩, nameStart)
    else none
  | _ => none

/-- The parameters that a statement declares for its block, as variables. -/
def parameterVariables (n : Node) : List (Text × Text × Nat) :=
  match n.form with
  | .callable _ _ _ params => params.map fun p => (p.name, p.default, p.offset)
  | _ => []

/-- The imports that a statement asks for. -/
def imports (n : Node) : List Import :=
  match n.form with
  | .importing keyword targets => targets.filterMap (·.toImport? keyword)
  | _ => []

end Node

mutual

/-- The blocks of a list of statements that contain the offset, outermost first. -/
def enclosingBlocks (offset : Int) : List Node → List Node
  | [] => []
  | n :: rest =>
    if n.contains offset then n :: enclosingInside offset n else enclosingBlocks offset rest

/-- The blocks inside a statement that contain the offset, outermost first. -/
def enclosingInside (offset : Int) : Node → List Node
  | .leaf .. => []
  | .block _ _ children _ => enclosingBlocks offset children

end

namespace Declarations

/-- What the statements of one level declare, in their order. -/
def ofLevel (nodes : List Node) : Declarations :=
  { vars := nodes.filterMap Node.binding?
    mixins := nodes.filterMap (Node.callable? .mixin)
    functions := nodes.filterMap (Node.callable? .function) }

/-- What a block declares before the offset, its parameters first. -/
def ofBlock (offset : Int) (block : Node) : Declarations :=
  let level := ofLevel (block.children.takeWhile fun n => decide ((n.start : Int) < offset))
  { level with vars := block.parameterVariables ++ level.vars }

/-- The declarations of `a` followed by those of `b`. -/
def append (a b : Declarations) : Declarations :=
  ⟨a.vars ++ b.vars, a.mixins ++ b.mixins, a.functions ++ b.functions⟩

/-- The declarations in reverse order. -/
def reverse (d : Declarations) : Declarations :=
  ⟨d.vars.reverse, d.mixins.reverse, d.functions.reverse⟩

/-- What the blocks around the offset declare before it, latest first. -/
def around (offset : Int) (nodes : List Node) : Declarations :=
  (((enclosingBlocks offset nodes).map (ofBlock offset)).foldl append ⟨[], [], []⟩).reverse

/-- What is declared for a cursor at the given offset, or for the file as a whole. -/
def visibleAt (scope : Option Int) (nodes : List Node) : Declarations :=
  match scope with
  | none => ofLevel nodes
  | some offset => (around offset nodes).append (ofLevel nodes)

end Declarations

/-- The record of a file with the given statements. Positions are taken in `t`. -/
def Document.ofNodes (path t : Text) (scope : Option Int) (nodes : List Node) : Document :=
  let decls := Declarations.visibleAt scope nodes
  let lines := LineIndex.ofText t
  let callable := fun (d : Text × List Parameter × Nat) =>
    (⟨d.1, d.2.1, d.2.2, lines.positionAt d.2.2⟩ : CallableSymbol)
  let references := (Reference.paths t).map fun p => { Import.ofText p with reference := true }
  { path := path
    vars := decls.vars.map fun d => ⟨d.1, d.2.1, d.2.2, lines.positionAt d.2.2⟩
    mixins := decls.mixins.map callable
    functions := decls.functions.map callable
    imports := (nodes.flatMap Node.imports ++ references).map
      (Import.resolveIn (Path.directory path)) }

/-- The record of a text, or the reason why it does not parse. -/
def extractStrict (path t : Text) (scope : Option Int) : Except ParseError Document :=
  match parse t with
  | .ok sheet => .ok (Document.ofNodes path t scope sheet.children)
  | .error e => .error ⟨path, e⟩

/-- The record of a text; one that does not parse declares nothing. -/
def extractLenient (path t : Text) (scope : Option Int) : Document :=
  match parse t with
  | .ok sheet => Document.ofNodes path t scope sheet.children
  | .error _ => Document.ofNodes path t scope []

/-- The record of a text in strict or lenient mode. -/
def extract (path t : Text) (scope : Option Int) (strict : Bool) : Except ParseError Document :=
  if strict then extractStrict path t scope else .ok (extractLenient path t scope)

end StyleIndex
