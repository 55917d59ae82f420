import StyleIndex.Text.Basic

set_option autoImplicit false

/-! # Statement trees

A stylesheet is a list of statements. A statement is either a leaf, ended by `;` or by the end
of its block, or a block with statements of its own between braces. Expressions are not taken
apart; a statement records only what the symbol index needs: the declared name, the
parameters, the import targets, and the raw text of the rest.

All offsets are byte offsets into the parsed text.
-/

namespace StyleIndex

/-- A flag at the end of a variable's value. -/
inductive Flag where
  | default
  | global
  deriving DecidableEq

/-- The spelling of a flag. -/
def Flag.word : Flag → Text
  | .default => text "!default"
  | .global => text "!global"

/-- A declared parameter of a mixin or function. The default is empty when there is none. -/
structure Param where
  name : Text
  default : Text
  offset : Nat
  deriving DecidableEq

/-- One target of an import statement; `url` when it is written as `url(…)`. -/
structure ImportTarget where
  path : Text
  offset : Nat
  url : Bool
  deriving DecidableEq

/-- What a statement that declares a callable declares. -/
inductive CallableKind where
  | mixin
  | function
  deriving DecidableEq

/-- The keywords that start an import statement. -/
inductive ImportKeyword where
  | importRule
  | useRule
  | forwardRule
  deriving DecidableEq

/-- The spelling of an import keyword. -/
def ImportKeyword.word : ImportKeyword → Text
  | .importRule => text "import"
  | .useRule => text "use"
  | .forwardRule => text "forward"

/-- What a statement is. -/
inductive Form where
  /-- A binding `$name: value`, with the flags found at the end of the value. -/
  | binding (name : Text) (flags : List Flag)
  /-- A mixin or function declaration; `nameStart` is the offset of its name. -/
  | callable (kind : CallableKind) (name : Text) (nameStart : Nat) (params : List Param)
  /-- An import statement. -/
  | importing (keyword : ImportKeyword) (targets : List ImportTarget)
  /-- A mixin inclusion; the name is the part after the last dot. -/
  | inclusion (name : Text) (nameStart : Nat)
  /-- Any other at-rule, with its keyword in lower case. -/
  | atRule (keyword : Text)
  /-- Any other statement with a block. -/
  | ruleset
  /-- Any other statement without a block. -/
  | declaration
  deriving DecidableEq

/-- A statement without its extent and its block. `value` is the value of a variable without
its flags, and the raw text up to the terminator for every other statement. -/
structure Head where
  start : Nat
  form : Form
  value : Text
  deriving DecidableEq

/-- A statement. `stop` is the offset just past it; `bodyStart` is the offset just past the
opening brace. -/
inductive Node where
  | leaf (head : Head) (stop : Nat)
  | block (head : Head) (bodyStart : Nat) (children : List Node) (stop : Nat)

/-- A parsed stylesheet: the length of its text and its statements. -/
structure Stylesheet where
  size : Nat
  children : List Node

/-! ## Kinds

The kinds of statement in the order of their codes. -/

/-- The kind of a statement; the whole stylesheet has a kind of its own. -/
inductive NodeKind where
  | stylesheet
  | binding
  | mixin
  | function
  | importing
  | inclusion
  | atRule
  | ruleset
  | declaration
  deriving DecidableEq

namespace NodeKind

/-- The name of a kind. -/
def name : NodeKind → Text
  | .stylesheet => text "stylesheet"
  | .binding => text "variable"
  | .mixin => text "mixin"
  | .function => text "function"
  | .importing => text "import"
  | .inclusion => text "include"
  | .atRule => text "at_rule"
  | .ruleset => text "rule_set"
  | .declaration => text "declaration"

/-- All kinds, in the order of their codes. -/
def all : List NodeKind :=
  [.stylesheet, .binding, .mixin, .function, .importing, .inclusion, .atRule, .ruleset,
    .declaration]

/-- The name of the kind with the given code, also for a code that no kind has. -/
def nameOfCode (code : Int) : Text :=
  match code with
  | .ofNat n =>
    match all[n]? with
    | some kind => kind.name
    | none => text "kind(" ++ Text.ofInt code ++ text ")"
  | .negSucc _ => text "kind(" ++ Text.ofInt code ++ text ")"

end NodeKind

/-! ## Views -/

namespace Form

/-- The kind of a statement of this form. -/
def kind : Form → NodeKind
  | .binding .. => .binding
  | .callable .mixin .. => .mixin
  | .callable .function .. => .function
  | .importing .. => .importing
  | .inclusion .. => .inclusion
  | .atRule _ => .atRule
  | .ruleset => .ruleset
  | .declaration => .declaration

/-- The name of a statement of this form: the declared or included name, or the keyword. -/
def name : Form → Text
  | .binding name _ => name
  | .callable _ name _ _ => name
  | .importing keyword _ => keyword.word
  | .inclusion name _ => name
  | .atRule keyword => keyword
  | .ruleset => []
  | .declaration => []

end Form

/-- The offset of the declared or included name, and zero for statements without one. -/
def Head.nameStart (h : Head) : Nat :=
  match h.form with
  | .binding .. => h.start
  | .callable _ _ nameStart _ => nameStart
  | .inclusion _ nameStart => nameStart
  | _ => 0

namespace Node

/-- The statement without its extent and its block. -/
def head : Node → Head
  | .leaf h _ => h
  | .block h _ _ _ => h

/-- The offset of the first byte. -/
def start (n : Node) : Nat := n.head.start

/-- The form of the statement. -/
def form (n : Node) : Form := n.head.form

/-- The offset just past the statement. -/
def stop : Node → Nat
  | .leaf _ stop => stop
  | .block _ _ _ stop => stop

/-- The statements of the block; none for a leaf. -/
def children : Node → List Node
  | .leaf .. => []
  | .block _ _ children _ => children

/-- The offset just past the opening brace, for a block. -/
def bodyStart? : Node → Option Nat
  | .leaf .. => none
  | .block _ bodyStart _ _ => some bodyStart

/-- Whether an offset falls inside the block of the statement. -/
def contains (n : Node) (offset : Int) : Bool :=
  match n with
  | .leaf .. => false
  | .block _ bodyStart _ stop => decide ((bodyStart : Int) ≤ offset) && decide (offset < stop)

end Node

/-- Whether an offset falls inside the stylesheet. -/
def Stylesheet.contains (s : Stylesheet) (offset : Int) : Bool :=
  decide (0 ≤ offset) && decide (offset < s.size)

end StyleIndex
